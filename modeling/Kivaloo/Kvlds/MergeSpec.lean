import Kivaloo.Kvlds.SplitSpec

/-!
# Merging keeps the search-tree invariant, and the passes end

`planmergenode` only caches sizes and marks children, so it changes no reading and no shape;
on a tree without marks it leaves marks as `Planned` says.  `domergenode` then replaces each
run of marked children, closed by the unmarked child after it, by one node: merged leaves
read as the run without its separators, a merged parent reads exactly as the run.  So a pass
rewrites the reading, keeps the shape, and leaves no marks.

A pass that asks for another (`needmerge` on the root) has merged some nodes, so the node
count falls; the count plus one is fuel enough for `balanceLoop`.
-/

namespace Kivaloo.Kvlds

open Kivaloo.Lib Node

/-! ## Planning -/

/-- What planning does to a child: cache its size, and perhaps mark it. -/
def PlanRel (c c' : Node) : Prop := c' = c.cacheSize ∨ c' = c.cacheSize.setMerging true

section PlanRel

variable {c c' : Node}

theorem PlanRel.reading (h : PlanRel c c') : reading c' = reading c := by
  rcases h with rfl | rfl <;> simp

theorem PlanRel.height (h : PlanRel c c') : c'.info.height = c.info.height := by
  rcases h with rfl | rfl <;> simp [Node.setMerging]

theorem PlanRel.shape (h : PlanRel c c') : Shape c' ↔ Shape c := by
  rcases h with rfl | rfl <;> simp

theorem PlanRel.count (h : PlanRel c c') : c'.count = c.count := by
  rcases h with rfl | rfl <;> simp

theorem PlanRel.children (h : PlanRel c c') : c'.children = c.children := by
  rcases h with rfl | rfl <;> simp [Node.cacheSize, Node.setMerging]

theorem PlanRel.state (h : PlanRel c c') : c'.info.state = c.info.state := by
  rcases h with rfl | rfl <;> simp [Node.setMerging]

/-- The marks below a node do not depend on its own fields but its state. -/
theorem plannedAt_setInfo {N : Node} {m : NodeInfo} (h : m.state = N.info.state) :
    PlannedAt (N.setInfo m) ↔ PlannedAt N := by
  cases N <;> simp_all [PlannedAt]

theorem planned_setInfo {N : Node} {m : NodeInfo} (h : m.state = N.info.state) :
    Planned (N.setInfo m) ↔ Planned N := by
  cases N with
  | leaf m' ps => simp [Planned, PlannedAt]
  | parent m' ks cs =>
    simp only [Planned, setInfo_parent, every_parent]
    rw [← setInfo_parent m' m ks cs, plannedAt_setInfo (by simpa using h)]

theorem PlanRel.planned (h : PlanRel c c') : Planned c' ↔ Planned c := by
  rcases h with rfl | rfl
  · exact planned_setInfo (by simp)
  · rw [Node.setMerging, planned_setInfo (by simp)]
    exact planned_setInfo (by simp)

end PlanRel

/-- Children related by `R` with equal readings read alike. -/
theorem readingList_forall₂ {R : Node → Node → Prop} (hR : ∀ c c', R c c' → reading c' = reading c)
    {cs cs' : List Node} (h : List.Forall₂ R cs cs') (ks : List KVLDSKey) :
    readingList ks cs' = readingList ks cs := by
  induction h generalizing ks with
  | nil => rfl
  | cons hc _ ih => obtain _ | ⟨k, ks⟩ := ks <;> simp [hR _ _ hc, ih]

theorem planmergenodeList_eq (maxplen : ℕ) (cs : List Node) :
    planmergenodeList maxplen cs = cs.map (planmergenode maxplen) := by
  induction cs with
  | nil => simp [planmergenodeList]
  | cons c cs ih => simp [planmergenodeList, ih]

theorem planStep_planRel (maxplen : ℕ) (st : PlanState) (k : KVLDSKey) (c : Node) :
    PlanRel c (planStep maxplen st k c).1 := by
  simp only [planStep]
  split_ifs <;> simp [PlanRel]

theorem planScan_planRel (maxplen : ℕ) :
    ∀ (st : PlanState) (es : List (KVLDSKey × Node)),
      List.Forall₂ PlanRel (es.map Prod.snd) (planScan maxplen st es)
  | _, [] => .nil
  | st, (k, c) :: es => .cons (planStep_planRel maxplen st k c) (planScan_planRel maxplen _ es)

/-- `planmergenode`'s scan caches and perhaps marks every child but the last, and caches the
last. -/
theorem planChildren_spec (maxplen : ℕ) {ks : List KVLDSKey} {cs : List Node}
    (hlen : cs.length = ks.length + 1) :
    List.Forall₂ PlanRel cs (planChildren maxplen ks cs) ∧
      (planChildren maxplen ks cs).getLast? = cs.getLast?.map Node.cacheSize := by
  obtain ⟨init, last, rfl⟩ : ∃ init last, cs = init ++ [last] :=
    ⟨cs.dropLast, cs.getLast (List.ne_nil_of_length_pos (by omega)),
      (List.dropLast_append_getLast _).symm⟩
  have hzip : (ks.reverse.zip init.reverse).map Prod.snd = init.reverse :=
    List.map_snd_zip (by simp at hlen ⊢; omega)
  have hscan := planScan_planRel maxplen (.restart last) (ks.reverse.zip init.reverse)
  rw [hzip] at hscan
  simp only [planChildren, List.reverse_append, List.reverse_cons, List.reverse_nil,
    List.nil_append, List.singleton_append]
  refine ⟨?_, by simp⟩
  have hinit : List.Forall₂ PlanRel init
      (planScan maxplen (.restart last) (ks.reverse.zip init.reverse)).reverse := by
    simpa using (List.forall₂_reverse_iff.mpr hscan)
  exact List.rel_append hinit (.cons (Or.inl rfl) .nil)

/-- What `planmergenode` keeps: the fields of the node, the reading, the shape and the count,
and, on a subtree without marks, marks as `Planned` says. -/
theorem planmergenode_spec (maxplen : ℕ) (N : Node) (hN : Shape N) :
    (planmergenode maxplen N).info = N.info ∧ reading (planmergenode maxplen N) = reading N ∧
      Shape (planmergenode maxplen N) ∧ (planmergenode maxplen N).count = N.count ∧
      (NoMarks N → Planned (planmergenode maxplen N)) := by
  induction N using Node.ind with
  | leaf m ps => exact ⟨rfl, rfl, hN, rfl, NoMarks.planned⟩
  | parent m ks cs ih =>
    obtain ⟨hlen, hcs⟩ := shape_parent.mp hN
    by_cases hdirty : m.state = .dirty
    · obtain ⟨hrel, hlast⟩ := planChildren_spec maxplen
        (show (cs.map (planmergenode maxplen)).length = ks.length + 1 by simpa using hlen)
      -- each planned child comes from an old child through the recursion and the scan
      have hfrom : ∀ c₂ ∈ planChildren maxplen ks (cs.map (planmergenode maxplen)),
          ∃ c ∈ cs, PlanRel (planmergenode maxplen c) c₂ := fun c₂ hc₂ => by
        obtain ⟨c₁, hc₁, hr⟩ := forall₂_exists_of_mem_right hrel hc₂
        obtain ⟨c, hc, rfl⟩ := List.mem_map.mp hc₁
        exact ⟨c, hc, hr⟩
      rw [planmergenode, if_pos hdirty, planmergenodeList_eq]
      refine ⟨rfl, ?_, shape_parent.mpr ⟨by rw [← hrel.length_eq]; simpa using hlen, fun c₂ hc₂ => ?_⟩,
        ?_, fun hm => every_parent.mpr ⟨?_, fun c₂ hc₂ => ?_⟩⟩
      · simp only [reading_parent]
        rw [readingList_forall₂ (fun _ _ h => h.reading) hrel]
        exact readingList_map_of_reading ks fun c hc => (ih c hc (hcs c hc).2).2.1
      · obtain ⟨c, hc, hr⟩ := hfrom c₂ hc₂
        obtain ⟨hinfo, -, hshape, -⟩ := ih c hc (hcs c hc).2
        exact ⟨by rw [hr.height, hinfo]; exact (hcs c hc).1, hr.shape.mpr hshape⟩
      · have hsum := forall₂_map_eq (fun _ _ h => PlanRel.count h) hrel
        simp only [count_parent, hsum, List.map_map]
        congr 2
        exact List.map_congr_left fun c hc => (ih c hc (hcs c hc).2).2.2.2.1
      · -- the last child keeps its own (absent) mark
        simp only [PlannedAt, hdirty, if_true, hlast]
        intro c₂ hc₂
        simp only [Option.mem_def, Option.map_eq_some_iff] at hc₂
        obtain ⟨c₁, hc₁, rfl⟩ := hc₂
        obtain ⟨c, hc, rfl⟩ := List.mem_map.mp (List.mem_of_getLast? hc₁)
        have hinfo := (ih c hc (hcs c hc).2).1
        simpa [hinfo] using ((every_parent.mp hm).2 c hc).self
      · obtain ⟨c, hc, hr⟩ := hfrom c₂ hc₂
        exact hr.planned.mpr ((ih c hc (hcs c hc).2).2.2.2.2 ((every_parent.mp hm).2 c hc))
    · rw [planmergenode, if_neg hdirty]
      exact ⟨rfl, rfl, hN, rfl, NoMarks.planned⟩

/-! ## Merging a run -/

section Children

variable {c : Node}

theorem noMarks_iff : NoMarks c ↔ c.info.merging = false ∧ ∀ d ∈ c.children, NoMarks d := by
  cases c with
  | leaf m ps => simp [NoMarks, Node.children]
  | parent m ks cs => simp [NoMarks, Node.children]

theorem Shape.children_length (h : Shape c) (hc : c.isLeaf = false) :
    c.children.length = c.parentKeys.length + 1 := by
  cases c with
  | leaf m ps => simp [Node.isLeaf] at hc
  | parent m ks cs => exact (shape_parent.mp h).1

theorem Shape.children (h : Shape c) : ∀ d ∈ c.children, d.info.height + 1 = c.info.height ∧ Shape d := by
  cases c with
  | leaf m ps => simp [Node.children]
  | parent m ks cs => exact (shape_parent.mp h).2

@[simp] theorem reading_of_isLeaf (hc : c.isLeaf = true) : reading c = c.leafPairs.map pairItem := by
  cases c with
  | leaf m ps => rfl
  | parent m ks cs => simp [Node.isLeaf] at hc

theorem reading_of_not_isLeaf (hc : c.isLeaf = false) : reading c = readingList c.parentKeys c.children := by
  cases c with
  | leaf m ps => simp [Node.isLeaf] at hc
  | parent m ks cs => rfl

end Children

/-- Merged leaves read as the run with its separators dropped. -/
theorem reading_mergeLeaf {cin : List Node} (hleaf : ∀ c ∈ cin, c.isLeaf = true)
    (kin : List KVLDSKey) : reading (mergeLeaf cin) = (readingList kin cin).filter Tok.isKey := by
  induction cin generalizing kin with
  | nil => simp [mergeLeaf]
  | cons c cs ih =>
    have hc := reading_of_isLeaf (hleaf c List.mem_cons_self)
    have hcs := fun kin => ih (fun d hd => hleaf d (List.mem_cons_of_mem _ hd)) kin
    simp only [mergeLeaf, reading_mkleaf] at hcs
    have hkeys : (c.leafPairs.map pairItem).filter Tok.isKey = c.leafPairs.map pairItem := by
      simp [List.filter_map, Function.comp_def, pairItem]
    obtain _ | ⟨k, kin⟩ := kin <;>
      simp [mergeLeaf, List.filter_append, hc, hkeys, ← hcs]

theorem mergeParentKeys_length :
    ∀ (cin : List Node) (kin : List KVLDSKey), cin.length = kin.length + 1 →
      (mergeParentKeys cin kin).length + 1 = (cin.map fun c => c.parentKeys.length + 1).sum
  | [], _, h => by simp at h
  | [c], kin, _ => by simp [mergeParentKeys]
  | c :: c' :: cs, k :: kin, h => by
    have := mergeParentKeys_length (c' :: cs) kin (by simpa using h)
    simp only [mergeParentKeys, List.length_append, List.length_cons, List.map_cons,
      List.sum_cons] at this ⊢
    omega
  | _ :: _ :: _, [], h => by simp at h

/-- A merged parent reads exactly as the run of parents with the separators between them. -/
theorem reading_mergeParent (height : ℕ) :
    ∀ (cin : List Node) (kin : List KVLDSKey), cin.length = kin.length + 1 →
      (∀ c ∈ cin, c.isLeaf = false ∧ c.children.length = c.parentKeys.length + 1) →
      reading (mergeParent height cin kin) = readingList kin cin
  | [], _, h, _ => by simp at h
  | [c], kin, h, hc => by
    obtain rfl : kin = [] := List.length_eq_zero_iff.mp (by simpa using h)
    have := reading_of_not_isLeaf (hc c List.mem_cons_self).1
    simp [mergeParent, mergeParentKeys, this]
  | c :: c' :: cs, k :: kin, h, hc => by
    have ih := reading_mergeParent height (c' :: cs) kin (by simpa using h)
      (fun d hd => hc d (List.mem_cons_of_mem _ hd))
    simp only [mergeParent, reading_mkparent, List.map_cons, List.flatten_cons, mergeParentKeys]
      at ih ⊢
    rw [readingList_append_cons (hc c List.mem_cons_self).2, ih,
      readingList_cons_cons, reading_of_not_isLeaf (hc c List.mem_cons_self).1]
  | _ :: _ :: _, [], h, _ => by simp at h

/-- What `domergenode` asks of the children it merges and compacts: siblings at one height,
well shaped, with no marks below them. -/
def Sibling (h : ℕ) (c : Node) : Prop := c.info.height = h ∧ Shape c ∧ ∀ d ∈ c.children, NoMarks d

/-- Well-shaped siblings are all leaves (at height zero) or all parents. -/
theorem Sibling.leaves_or_parents {h : ℕ} {cin : List Node} (hcin : ∀ c ∈ cin, Sibling h c) :
    (h = 0 ∧ ∀ d ∈ cin, d.isLeaf = true) ∨
      (h ≠ 0 ∧ ∀ d ∈ cin, d.isLeaf = false ∧ d.children.length = d.parentKeys.length + 1) := by
  by_cases hh : h = 0
  · exact .inl ⟨hh, fun d hd => (hcin d hd).2.1.isLeaf_iff.mpr ((hcin d hd).1.trans hh)⟩
  · refine .inr ⟨hh, fun d hd => ?_⟩
    obtain ⟨hdh, hds, -⟩ := hcin d hd
    have hdl : d.isLeaf = false := by
      by_contra hdl
      exact hh (hdh.symm.trans (hds.isLeaf_iff.mp (by simpa using hdl)))
    exact ⟨hdl, hds.children_length hdl⟩

/-- `btree_node_merge` on a run of siblings at height `h` makes one well-shaped node at height
`h` without marks whose reading is a rewrite of the run's. -/
theorem btreeNodeMerge_spec {cin : List Node} {kin : List KVLDSKey} {h : ℕ}
    (hlen : cin.length = kin.length + 1) (hcin : ∀ c ∈ cin, Sibling h c) :
    (btreeNodeMerge cin kin).info.height = h ∧ Shape (btreeNodeMerge cin kin) ∧
      NoMarks (btreeNodeMerge cin kin) ∧ Rewrite (readingList kin cin) (reading (btreeNodeMerge cin kin)) := by
  obtain _ | ⟨c, cs⟩ := cin
  · simp at hlen
  rcases Sibling.leaves_or_parents hcin with ⟨hh, hleaves⟩ | ⟨hh, hparents⟩
  · -- a run of leaves: their pairs in one leaf
    simp only [btreeNodeMerge, hleaves c List.mem_cons_self, if_true]
    refine ⟨by simp [mergeLeaf, hh], shape_mkleaf _, noMarks_mkleaf _, ?_⟩
    rw [reading_mergeLeaf hleaves kin]
    exact rewrite_filter_isKey _
  · -- a run of parents: their keys and children, with the separators pulled down
    have hch := (hcin c List.mem_cons_self).1
    simp only [btreeNodeMerge, (hparents c List.mem_cons_self).1, if_false, Bool.false_eq_true]
    refine ⟨by simp [mergeParent, hch], shape_mkparent ?_ ?_, noMarks_mkparent ?_,
      Rewrite.of_eq (reading_mergeParent _ _ _ hlen hparents).symm⟩
    · rw [mergeParentKeys_length _ _ hlen, List.length_flatten, List.map_map]
      exact congrArg List.sum (List.map_congr_left fun d hd => (hparents d hd).2)
    · intro d hd
      obtain ⟨e, he, hde⟩ := List.mem_flatten.mp hd
      obtain ⟨p, hp, rfl⟩ := List.mem_map.mp he
      obtain ⟨hph, hps, -⟩ := hcin p hp
      obtain ⟨hdh, hds⟩ := hps.children d hde
      exact ⟨by rw [hdh, hph, hch], hds⟩
    · intro d hd
      obtain ⟨e, he, hde⟩ := List.mem_flatten.mp hd
      obtain ⟨p, hp, rfl⟩ := List.mem_map.mp he
      exact (hcin p hp).2.2 d hde

theorem count_eq_children (c : Node) : c.count = (c.children.map count).sum + 1 := by
  cases c with
  | leaf m ps => simp [Node.children]
  | parent m ks cs => simp [Node.children]; omega

/-- The nodes of a list of subtrees: their roots and the nodes below them. -/
theorem sum_map_count (l : List Node) :
    (l.map count).sum = (l.map fun d => (d.children.map count).sum).sum + l.length := by
  induction l with
  | nil => rfl
  | cons d l ih => simp [ih, count_eq_children d]; omega

/-- `btree_node_merge` removes one node per separator of the run. -/
theorem btreeNodeMerge_count {cin : List Node} {kin : List KVLDSKey} {h : ℕ}
    (hlen : cin.length = kin.length + 1) (hcin : ∀ c ∈ cin, Sibling h c) :
    (btreeNodeMerge cin kin).count + kin.length = (cin.map count).sum := by
  obtain _ | ⟨c, cs⟩ := cin
  · simp at hlen
  rw [sum_map_count]
  rcases Sibling.leaves_or_parents hcin with ⟨-, hleaves⟩ | ⟨-, hparents⟩
  · -- leaves have no children
    have hnone : ∀ d ∈ c :: cs, (d.children.map count).sum = 0 := fun d hd => by
      cases d with
      | leaf m ps => rfl
      | parent m ks ds => simpa [Node.isLeaf] using hleaves _ hd
    simp only [btreeNodeMerge, hleaves c List.mem_cons_self, if_true, mergeLeaf, mkleaf,
      count_leaf, List.map_congr_left hnone]
    simp at hlen ⊢
    omega
  · simp only [btreeNodeMerge, (hparents c List.mem_cons_self).1, if_false, Bool.false_eq_true,
      mergeParent, mkparent, count_parent, List.map_flatten, List.sum_flatten, List.map_map,
      Function.comp_def]
    simp only [List.length_cons] at hlen ⊢
    omega

/-! ## Compacting the children -/

section Compact

variable {h : ℕ}

/-- An unmarked child closes the pending run: it is kept if the run is empty, else merged with
the run. -/
theorem closeRun_spec {run : List Node} {runKeys : List KVLDSKey} {c : Node}
    (hlen : run.length = runKeys.length) (hc : c.info.merging = false)
    (hsib : ∀ d ∈ run ++ [c], Sibling h d) :
    let out := if run = [] then c else btreeNodeMerge (run ++ [c]) runKeys
    (out.info.height = h ∧ Shape out ∧ NoMarks out) ∧
      Rewrite (readingList runKeys (run ++ [c])) (reading out) ∧
      out.count + run.length = ((run ++ [c]).map count).sum := by
  intro out
  by_cases hrun : run = []
  · subst hrun
    obtain rfl : runKeys = [] := List.length_eq_zero_iff.mp hlen.symm
    obtain ⟨hch, hcs, hcm⟩ := hsib c (by simp)
    simp only [out, if_true]
    exact ⟨⟨hch, hcs, noMarks_iff.mpr ⟨hc, hcm⟩⟩, by simpa using Rewrite.refl (reading c), by simp⟩
  · simp only [out, hrun, if_false]
    have hlen' : (run ++ [c]).length = runKeys.length + 1 := by simp [hlen]
    obtain ⟨hmh, hms, hmm, hmr⟩ := btreeNodeMerge_spec hlen' hsib
    exact ⟨⟨hmh, hms, hmm⟩, hmr, hlen ▸ btreeNodeMerge_count hlen' hsib⟩

/-- The compaction loop of `domergenode`, with a pending run `run` and its separators
`runKeys`, over the children `cs` with their separators `ks` (none after the last child): if the
last child is unmarked, every run is closed, and the new children are well-shaped siblings
without marks, one more than the new keys, whose reading is a rewrite of the old.  Each
marked child is merged away: it is a node less, and one less in `T->nnodes`. -/
theorem compactRuns_spec :
    ∀ (cs : List Node) (ks : List KVLDSKey) (run : List Node) (runKeys : List KVLDSKey),
      cs.length = ks.length + 1 → run.length = runKeys.length →
      (∀ c ∈ run ++ cs, Sibling h c) → (∀ c ∈ cs.getLast?, c.info.merging = false) →
      let r := compactRuns run runKeys (cs.zip (ks.map some ++ [none]))
      r.1.length = r.2.1.length + 1 ∧ (∀ c ∈ r.1, c.info.height = h ∧ Shape c ∧ NoMarks c) ∧
        Rewrite (readingList (runKeys ++ ks) (run ++ cs)) (readingList r.2.1 r.1) ∧
        (r.1.map count).sum + run.length + cs.countP (·.info.merging) =
          (run.map count).sum + (cs.map count).sum ∧
        r.2.2 = run.length + cs.countP (·.info.merging)
  | [], _, _, _, hlen, _, _, _ => by simp at hlen
  | c :: cs, ks, run, runKeys, hlen, hrun, hsib, hlast => by
    obtain _ | ⟨k, ks⟩ := ks
    · -- the last child, unmarked, closes the run
      obtain rfl : cs = [] := List.length_eq_zero_iff.mp (by simpa using hlen)
      have hc : c.info.merging = false := hlast c (by simp)
      obtain ⟨hout, hrw, hcount⟩ := closeRun_spec hrun hc hsib
      simp only [List.map_nil, List.nil_append, List.zip_cons_cons, List.zip_nil_left,
        compactRuns, hc, Bool.false_eq_true, if_false, Option.toList_none, List.append_nil]
      refine ⟨rfl, by simpa using hout, by simpa using hrw, ?_, by simp [hc]⟩
      simp only [List.map_append, List.sum_append, List.map_cons, List.map_nil,
        List.sum_cons, List.sum_nil] at hcount
      simp [hc]
      omega
    · have hne : cs ≠ [] := List.ne_nil_of_length_pos (by simp at hlen; omega)
      have hlast' : ∀ d ∈ cs.getLast?, d.info.merging = false := by
        obtain ⟨d, cs', rfl⟩ := List.exists_cons_of_ne_nil hne
        exact hlast
      simp only [List.map_cons, List.cons_append, List.zip_cons_cons, compactRuns]
      by_cases hc : c.info.merging
      · -- `c` joins the pending run, with its separator
        simp only [hc, if_true, Option.toList_some]
        obtain ⟨hl, hout, hrw, hcount, hn⟩ := compactRuns_spec cs ks (run ++ [c]) (runKeys ++ [k])
          (by simpa using hlen) (by simp [hrun]) (by simpa using hsib) hlast'
        refine ⟨hl, hout, by simpa using hrw, ?_, by simp [hn, hc]; omega⟩
        simp [hc] at hcount ⊢
        omega
      · -- `c` closes the pending run; the rest starts afresh after the separator `k`
        simp only [hc, Bool.false_eq_true, if_false, Option.toList_some]
        obtain ⟨hout, hrw, hcount⟩ := closeRun_spec hrun (by simpa using hc)
          (fun d hd => hsib d (by simp at hd ⊢; tauto))
        obtain ⟨hl, hout', hrw', hcount', hn⟩ := compactRuns_spec cs ks [] [] (by simpa using hlen)
          rfl (fun d hd => hsib d (by simp at hd ⊢; tauto)) hlast'
        refine ⟨by simp [hl], ?_, ?_, ?_, by simp [hn, hc]⟩
        · intro d hd
          rcases List.mem_cons.mp hd with hd | hd
          · rw [hd]
            exact hout
          · exact hout' d hd
        · have hsplit := readingList_append_cons
            (show (run ++ [c]).length = runKeys.length + 1 by simp [hrun]) k ks cs
          simp only [List.append_assoc, List.singleton_append] at hsplit
          rw [hsplit, List.singleton_append, readingList_cons_cons]
          exact hrw.append (by simpa using hrw'.cons_left (.sep k))
        · simp only [List.map_append, List.sum_append, List.map_cons, List.map_nil,
            List.sum_cons, List.sum_nil] at hcount
          simp [hc] at hcount' ⊢
          omega

end Compact

/-! ## `domergenode` -/

/-- What the dirtying loop of `domergenode` does to a child: keep it, or replace it by its
dirty copy, which carries its mark. -/
def DirtyRel (c c' : Node) : Prop := c' = c ∨ c' = c.dirtyCopy.setMerging c.info.merging

section DirtyRel

variable {c c' : Node}

theorem DirtyRel.reading (hr : DirtyRel c c') : reading c' = reading c := by
  rcases hr with rfl | rfl <;> simp

theorem DirtyRel.merging (hr : DirtyRel c c') : c'.info.merging = c.info.merging := by
  rcases hr with rfl | rfl <;> simp

theorem DirtyRel.count (hr : DirtyRel c c') : c'.count = c.count := by
  rcases hr with rfl | rfl <;> simp

theorem DirtyRel.sibling {h : ℕ} (hr : DirtyRel c c') : Sibling h c' ↔ Sibling h c := by
  rcases hr with rfl | rfl
  · rfl
  · simp only [Sibling, shape_setMerging, shape_dirtyCopy]
    simp [Node.setMerging, Node.dirtyCopy, mknodeInfo]

end DirtyRel

theorem DirtyRel.countP_merging {cs cs' : List Node} (h : List.Forall₂ DirtyRel cs cs') :
    cs'.countP (·.info.merging) = cs.countP (·.info.merging) := by
  induction h with
  | nil => rfl
  | cons hr _ ih => simp [List.countP_cons, hr.merging, ih]

theorem dirtyRuns_forall₂ : ∀ (prev : Bool) (cs : List Node), List.Forall₂ DirtyRel cs (dirtyRuns prev cs)
  | _, [] => .nil
  | prev, c :: cs => by
    refine .cons ?_ (dirtyRuns_forall₂ _ cs)
    simp only [DirtyRel]
    split_ifs <;> simp

/-- What holds of `domergenode`'s result on each child, however many nodes the tree had, holds
of the children after the recursion. -/
theorem domergenodeList_forall₂ {P : Node → Node → Prop} :
    ∀ {cs : List Node} (n : ℕ), (∀ c ∈ cs, ∀ k, P c (domergenode c k).1) →
      List.Forall₂ P cs (domergenodeList cs n).1
  | [], _, _ => by simp [domergenodeList]
  | c :: cs, n, hP => by
    simp only [domergenodeList]
    exact .cons (hP c List.mem_cons_self n)
      (domergenodeList_forall₂ _ fun d hd k => hP d (List.mem_cons_of_mem _ hd) k)

/-- `domergenode` keeps the height, the mark and the shape of a planned subtree, leaves no marks
below it, and rewrites its reading. -/
theorem domergenode_spec (N : Node) : Shape N → Planned N → ∀ n,
    (domergenode N n).1.info.height = N.info.height ∧
      (domergenode N n).1.info.merging = N.info.merging ∧ Shape (domergenode N n).1 ∧
      (∀ d ∈ (domergenode N n).1.children, NoMarks d) ∧
      Rewrite (reading N) (reading (domergenode N n).1) := by
  induction N using Node.ind with
  | leaf m ps =>
    intro hN _ n
    simp only [domergenode]
    exact ⟨rfl, rfl, by simpa using hN, by simp [Node.children], by simpa using Rewrite.refl _⟩
  | parent m ks cs ih =>
    intro hN hp n
    obtain ⟨hlen, hcs⟩ := shape_parent.mp hN
    obtain ⟨hat, hpc⟩ := every_parent.mp hp
    by_cases hdirty : m.state = .dirty
    · have hlast : ∀ c ∈ cs.getLast?, c.info.merging = false := by
        simpa [PlannedAt, hdirty] using hat
      -- the children after the recursion, each related to its old child
      set rs := (domergenodeList cs n).1
      have hres : List.Forall₂ (fun c r => c.info.height + 1 = m.height ∧
          r.info.height = c.info.height ∧ r.info.merging = c.info.merging ∧ Shape r ∧
          (∀ d ∈ r.children, NoMarks d) ∧ Rewrite (reading c) (reading r)) cs rs :=
        domergenodeList_forall₂ n fun c hc k => ⟨(hcs c hc).1, ih c hc (hcs c hc).2 (hpc c hc) k⟩
      have hrw := readingList_rewrite (hres.imp fun _ _ h => h.2.2.2.2.2) ks
      have hheight : ∀ r ∈ rs, r.info.height + 1 = m.height ∧ Shape r ∧
          ∀ d ∈ r.children, NoMarks d := fun r hr => by
        obtain ⟨c, -, hch, hh, -, hs, hd, -⟩ := forall₂_exists_of_mem_right hres hr
        exact ⟨hh ▸ hch, hs, hd⟩
      simp only [domergenode, hdirty, if_true, domergeBody]
      split_ifs with hany
      · -- some child is marked: dirty the runs and compact them
        have hds := dirtyRuns_forall₂ false rs
        have hsib : ∀ d ∈ [] ++ dirtyRuns false rs, Sibling (m.height - 1) d := fun d hd => by
          obtain ⟨r, hr, hrd⟩ := forall₂_exists_of_mem_right hds (by simpa using hd)
          obtain ⟨hrh, hrs, hrm⟩ := hheight r hr
          exact hrd.sibling.mpr ⟨by omega, hrs, hrm⟩
        have hlast' : ∀ d ∈ (dirtyRuns false rs).getLast?, d.info.merging = false := fun d hd => by
          obtain ⟨r, hr, hrd⟩ := forall₂_getLast? hds hd
          obtain ⟨c, hc, -, -, hm, -⟩ := forall₂_getLast? hres hr
          rw [hrd.merging, hm]
          exact hlast c hc
        obtain ⟨hl, hout, hrw', -, -⟩ := compactRuns_spec (dirtyRuns false rs) ks [] []
          (by rw [← hds.length_eq, ← hres.length_eq, hlen]) rfl hsib hlast'
        have hpos : 1 ≤ m.height := by
          obtain ⟨c, hc⟩ := List.exists_mem_of_length_pos (by omega : 0 < cs.length)
          have := (hcs c hc).1
          omega
        refine ⟨rfl, rfl, shape_parent.mpr ⟨hl, fun c hc => ?_⟩, fun d hd => (hout d hd).2.2, ?_⟩
        · exact ⟨by have := (hout c hc).1; simp only [] at this ⊢; omega, (hout c hc).2.1⟩
        · simp only [reading_parent]
          refine hrw.trans ((Rewrite.of_eq ?_).trans (by simpa using hrw'))
          exact (readingList_forall₂ (fun _ _ h => h.reading) hds ks).symm
      · -- no child is marked: the children are kept
        refine ⟨rfl, rfl, shape_parent.mpr ⟨by rw [← hres.length_eq, hlen], fun r hr =>
          ⟨(hheight r hr).1, (hheight r hr).2.1⟩⟩, fun r hr => ?_, hrw⟩
        replace hr : r ∈ rs := by simpa [Node.children] using hr
        have hm : r.info.merging = false := by simpa using (List.any_eq_false.mp (by simpa using hany)) r hr
        exact noMarks_iff.mpr ⟨hm, (hheight r hr).2.2⟩
    · simp only [domergenode, hdirty, if_false]
      have hnm : ∀ c ∈ cs, NoMarks c := by simpa [PlannedAt, hdirty] using hat
      exact ⟨rfl, rfl, shape_parent.mpr ⟨hlen, hcs⟩, hnm, Rewrite.refl _⟩

/-- A pass of `domergenode` that asks for another (`needmerge`) has merged some nodes away. -/
theorem domergenode_count (N : Node) : Shape N → Planned N → ∀ n,
    (domergenode N n).1.count + (domergenode N n).1.info.needmerge.toNat ≤ N.count := by
  induction N using Node.ind with
  | leaf m ps => intro _ _ n; simp [domergenode]
  | parent m ks cs ih =>
    intro hN hp n
    obtain ⟨hlen, hcs⟩ := shape_parent.mp hN
    obtain ⟨hat, hpc⟩ := every_parent.mp hp
    by_cases hdirty : m.state = .dirty
    · simp only [domergenode, hdirty, if_true, domergeBody]
      set rs := (domergenodeList cs n).1
      have hres : List.Forall₂ (fun c r => r.count + r.info.needmerge.toNat ≤ c.count)
          cs rs :=
        domergenodeList_forall₂ n fun c hc k => ih c hc (hcs c hc).2 (hpc c hc) k
      have hsum := forall₂_sum_le hres
      split_ifs with hany
      · -- the compaction merged away one node per marked child, and some child is marked
        have hlast : ∀ c ∈ cs.getLast?, c.info.merging = false := by
          simpa [PlannedAt, hdirty] using hat
        have hspec := fun c hc => domergenode_spec c (hcs c hc).2 (hpc c hc)
        have hrel : List.Forall₂ (fun c r => c.info.height + 1 = m.height ∧
            r.info.height = c.info.height ∧ r.info.merging = c.info.merging ∧ Shape r ∧
            ∀ d ∈ r.children, NoMarks d) cs rs :=
          domergenodeList_forall₂ n fun c hc k => by
            obtain ⟨h₁, h₂, h₃, h₄, -⟩ := hspec c hc k
            exact ⟨(hcs c hc).1, h₁, h₂, h₃, h₄⟩
        have hds := dirtyRuns_forall₂ false rs
        have hsib : ∀ d ∈ [] ++ dirtyRuns false rs, Sibling (m.height - 1) d := fun d hd => by
          obtain ⟨r, hr, hrd⟩ := forall₂_exists_of_mem_right hds (by simpa using hd)
          obtain ⟨c, -, hch, hh, -, hs, hd⟩ := forall₂_exists_of_mem_right hrel hr
          exact hrd.sibling.mpr ⟨by omega, hs, hd⟩
        have hlast' : ∀ d ∈ (dirtyRuns false rs).getLast?, d.info.merging = false := fun d hd => by
          obtain ⟨r, hr, hrd⟩ := forall₂_getLast? hds hd
          obtain ⟨c, hc, -, -, hm, -⟩ := forall₂_getLast? hrel hr
          rw [hrd.merging, hm]
          exact hlast c hc
        obtain ⟨-, -, -, hcount, -⟩ := compactRuns_spec (dirtyRuns false rs) ks [] []
          (by rw [← hds.length_eq, ← hrel.length_eq, hlen]) rfl hsib hlast'
        have hdsum : (dirtyRuns false rs).map count = rs.map count :=
          forall₂_map_eq (fun _ _ h => DirtyRel.count h) hds
        have hmarks := DirtyRel.countP_merging hds
        have hpos : 0 < rs.countP (·.info.merging) := List.countP_pos_iff.mpr (by simpa using hany)
        simp only [List.map_nil, List.sum_nil, List.length_nil, hdsum, hmarks] at hcount
        simp only [count_parent, info_parent, Bool.toNat_true]
        omega
      · simp only [count_parent, info_parent]
        omega
    · simp [domergenode, hdirty]

/-! ## `deroot` and a whole pass -/

theorem noMarks_setInfo {N : Node} {m : NodeInfo} (h : m.merging = N.info.merging) :
    NoMarks (N.setInfo m) ↔ NoMarks N := by
  rw [noMarks_iff, noMarks_iff, info_setInfo, children_setInfo, h]

/-- `deroot` keeps the shape and the absence of marks, and the reading. -/
theorem derootFrom_spec (R : Node) : Shape R → NoMarks R → ∀ (promoted : Bool) (n : ℕ),
    Shape (derootFrom promoted R n).1 ∧ NoMarks (derootFrom promoted R n).1 ∧
      reading (derootFrom promoted R n).1 = reading R := by
  -- the roots that stay are marked as roots and forget their size, which changes neither
  have hstay : ∀ (N : Node) (p : Bool), Shape N → NoMarks N →
      Shape (if p then N.setInfo { N.info with root := true, pagesize := none } else N) ∧
      NoMarks (if p then N.setInfo { N.info with root := true, pagesize := none } else N) ∧
      reading (if p then N.setInfo { N.info with root := true, pagesize := none } else N) =
        reading N := fun N p hs hm => by
    cases p
    · exact ⟨hs, hm, rfl⟩
    · rw [if_pos rfl]
      exact ⟨(shape_setInfo (m := { N.info with root := true, pagesize := none }) rfl).mpr hs,
        (noMarks_setInfo (m := { N.info with root := true, pagesize := none }) rfl).mpr hm, by simp⟩
  induction R using Node.ind with
  | leaf m ps => intro hs hm p n; simpa [derootFrom] using hstay _ p hs hm
  | parent m ks cs ih =>
    intro hs hm p n
    obtain ⟨hlen, hcs⟩ := shape_parent.mp hs
    obtain _ | ⟨k, ks⟩ := ks
    · -- a root with one child: promote the child
      obtain ⟨c, rfl⟩ : ∃ c, cs = [c] := List.length_eq_one_iff.mp hlen
      have hc := (every_parent.mp hm).2 c List.mem_cons_self
      simpa [derootFrom] using ih c List.mem_cons_self (hcs c List.mem_cons_self).2 hc true (n - 1)
    · simpa [derootFrom] using hstay _ p hs hm

/-- One pass of `planmergenode` and `domergenode` on a well-shaped tree without marks keeps
the shape, leaves no marks, rewrites the reading, and, if it asks for another pass, has
merged some nodes away. -/
theorem mergePass_spec (maxplen : ℕ) {R : Node} (hs : Shape R) (hm : NoMarks R) (n : ℕ) :
    let D := (domergenode (planmergenode maxplen R) n).1
    Shape D ∧ NoMarks D ∧ Rewrite (reading R) (reading D) ∧
      D.count + D.info.needmerge.toNat ≤ R.count := by
  intro D
  obtain ⟨hinfo, hread, hps, hcount, hplanned⟩ := planmergenode_spec maxplen R hs
  obtain ⟨-, hdm, hds, hdc, hdr⟩ := domergenode_spec _ hps (hplanned hm) n
  have hcnt := domergenode_count _ hps (hplanned hm) n
  refine ⟨hds, noMarks_iff.mpr ⟨?_, hdc⟩, hread ▸ hdr, hcount ▸ hcnt⟩
  rw [hdm, hinfo]
  exact (noMarks_iff.mp hm).1

end Kivaloo.Kvlds
