import Kivaloo.Lib.ListRel
import Kivaloo.Kvlds.Invariant
import Kivaloo.Kvlds.Balance

/-!
# Splitting keeps the search-tree invariant

`btree_node_split` turns a node into parts whose reading, with the separators between them, is
a rewrite of the node's reading: a parent's parts read exactly as the parent, and a leaf's
parts gain the separators in front of the pairs that start them.  This needs every leaf part
to be non-empty, which holds as soon as an empty part is never oversized
(`serializeOverhead ≤ breakat`).  From this, `splitchildren`, `splitroot` and `splittree` keep
the shape conditions, the order and the absence of merge marks.
-/

namespace Kivaloo.Kvlds

open Kivaloo.Lib Node

@[simp] theorem reading_mkleaf (ps : List (KVLDSKey × KVLDSKey)) :
    reading (mkleaf ps) = ps.map pairItem := by
  simp [mkleaf]

@[simp] theorem reading_mkparent (h : ℕ) (ks : List KVLDSKey) (cs : List Node) :
    reading (mkparent h ks cs) = readingList ks cs := by
  simp [mkparent]

@[simp] theorem mkleaf_height (ps) : (mkleaf ps).info.height = 0 := rfl
@[simp] theorem mkparent_height (h ks cs) : (mkparent h ks cs).info.height = h := rfl

theorem shape_mkleaf (ps) : Shape (mkleaf ps) := by simp [mkleaf, mknodeInfo]

theorem noMarks_mkleaf (ps) : NoMarks (mkleaf ps) := by simp [NoMarks, mkleaf, mknodeInfo]

theorem shape_mkparent {h ks cs} (hlen : cs.length = ks.length + 1)
    (hcs : ∀ c ∈ cs, c.info.height + 1 = h ∧ Shape c) : Shape (mkparent h ks cs) :=
  shape_parent.mpr ⟨hlen, hcs⟩

theorem noMarks_mkparent {h ks cs} (hcs : ∀ c ∈ cs, NoMarks c) : NoMarks (mkparent h ks cs) :=
  every_parent.mpr ⟨rfl, hcs⟩

/-- Rewriting the children one by one rewrites the reading of the parent. -/
theorem readingList_rewrite {cs cs' : List Node}
    (h : List.Forall₂ (fun c c' => Rewrite (reading c) (reading c')) cs cs') (ks : List KVLDSKey) :
    Rewrite (readingList ks cs) (readingList ks cs') := by
  induction h generalizing ks with
  | nil => exact Rewrite.refl _
  | cons hc _ ih =>
    obtain _ | ⟨k, ks⟩ := ks
    · simpa using hc.append (ih [])
    · simpa using hc.append ((ih ks).cons_left _)

/-! ## Splitting a leaf -/

section Leaf

variable {breakat : ℕ}

theorem splitLeafLoop_length' (ps : List (KVLDSKey × KVLDSKey)) :
    ∀ (cur : List (KVLDSKey × KVLDSKey)) (cursize : ℕ),
      (splitLeafLoop breakat cur cursize ps).2.length = (splitLeafLoop breakat cur cursize ps).1.length + 1 := by
  induction ps with
  | nil => simp [splitLeafLoop]
  | cons p ps ih =>
    intro cur cursize
    obtain ⟨k, v⟩ := p
    by_cases h : cursize > breakat
    · simp [splitLeafLoop, h, ih]
    · simp [splitLeafLoop, h, ih]

/-- The parts of `split_leaf` read as the leaf with a separator in front of each part but the
first.  `cursize` is the size of the part under construction; as an empty part is not
oversized, a part closes only when it holds a pair. -/
theorem splitLeafLoop_rewrite (hb : serializeOverhead ≤ breakat) (ps : List (KVLDSKey × KVLDSKey)) :
    ∀ (cur : List (KVLDSKey × KVLDSKey)) (cursize : ℕ), cursize = serializeOverhead + pairsSize cur →
      Rewrite ((cur ++ ps).map pairItem)
        (readingList (splitLeafLoop breakat cur cursize ps).1
          ((splitLeafLoop breakat cur cursize ps).2.map mkleaf)) := by
  induction ps with
  | nil =>
    intro cur cursize _
    simpa [splitLeafLoop] using Rewrite.refl _
  | cons p ps ih =>
    intro cur cursize hsize
    obtain ⟨k, v⟩ := p
    by_cases h : cursize > breakat
    · -- `cur` closes: it is not empty, so the separator `k` can go in front of `(k, v)`
      have hne : cur ≠ [] := by
        rintro rfl
        simp [pairsSize] at hsize
        omega
      have hrest := ih [(k, v)] (serializeOverhead + k.serialSize + v.serialSize)
        (by simp [pairsSize, Nat.add_assoc])
      simp only [splitLeafLoop, h, if_true, List.map_cons, readingList_cons_cons, reading_mkleaf]
      exact (rewrite_insert_sep hne).trans ((Rewrite.refl _).append (hrest.cons_left _))
    · simp only [splitLeafLoop, h, if_false]
      have := ih (cur ++ [(k, v)]) (cursize + k.serialSize + v.serialSize)
        (by simp [hsize, pairsSize, Nat.add_assoc])
      simpa using this

theorem splitLeaf_rewrite (hb : serializeOverhead ≤ breakat) (ps : List (KVLDSKey × KVLDSKey)) :
    Rewrite (ps.map pairItem)
      (readingList (splitLeaf breakat ps).1 ((splitLeaf breakat ps).2.map mkleaf)) := by
  simpa [splitLeaf] using splitLeafLoop_rewrite hb ps [] serializeOverhead (by simp [pairsSize])

end Leaf

/-! ## Splitting a parent -/

section Parent

/-- The parts of `split_parent` with the promoted separators between them read as the keys
and children they were cut from.  Each part has one child more than keys, and holds children
of the node. -/
theorem splitParentLoop_spec (breakat h : ℕ) (rest : List (KVLDSKey × Node)) :
    ∀ (curKeys : List KVLDSKey) (curChildren : List Node) (cursize : ℕ),
      curChildren.length = curKeys.length + 1 →
      let r := splitParentLoop breakat curKeys curChildren cursize rest
      r.2.length = r.1.length + 1 ∧
      (∀ p ∈ r.2, p.2.length = p.1.length + 1 ∧ ∀ c ∈ p.2, c ∈ curChildren ∨ c ∈ rest.map Prod.snd) ∧
      readingList r.1 (r.2.map fun p => mkparent h p.1 p.2) =
        readingList (curKeys ++ rest.map Prod.fst) (curChildren ++ rest.map Prod.snd) := by
  induction rest with
  | nil =>
    intro curKeys curChildren cursize hlen
    simp [splitParentLoop, hlen]
  | cons e rest ih =>
    intro curKeys curChildren cursize hlen
    obtain ⟨k, c⟩ := e
    by_cases hc : cursize > breakat
    · -- the part closes before `c`, and `k` is promoted
      obtain ⟨hl, hparts, hread⟩ := ih [] [c] (serializeOverhead + serializePerchild) rfl
      simp only [splitParentLoop, hc, if_true, List.length_cons, List.mem_cons, List.map_cons,
        readingList_cons_cons, reading_mkparent]
      refine ⟨by omega, ?_, ?_⟩
      · rintro p (rfl | hp)
        · exact ⟨hlen, fun d hd => .inl hd⟩
        · obtain ⟨hpl, hpc⟩ := hparts p hp
          refine ⟨hpl, fun d hd => .inr ?_⟩
          rcases hpc d hd with hd | hd
          · exact .inl (by simpa using hd)
          · exact .inr hd
      · rw [hread, readingList_append_cons hlen]
        simp
    · obtain ⟨hl, hparts, hread⟩ := ih (curKeys ++ [k]) (curChildren ++ [c])
        (cursize + k.serialSize + serializePerchild) (by simp [hlen])
      simp only [splitParentLoop, hc, if_false]
      refine ⟨hl, fun p hp => ?_, by simpa using hread⟩
      obtain ⟨hpl, hpc⟩ := hparts p hp
      refine ⟨hpl, fun d hd => ?_⟩
      rcases hpc d hd with hd | hd
      · rcases List.mem_append.mp hd with hd | hd
        · exact .inl hd
        · exact .inr (by simp_all)
      · exact .inr (List.mem_cons_of_mem _ hd)

theorem splitParent_spec (breakat h : ℕ) {ks : List KVLDSKey} {cs : List Node}
    (hlen : cs.length = ks.length + 1) :
    let r := splitParent breakat ks cs
    r.2.length = r.1.length + 1 ∧ (∀ p ∈ r.2, p.2.length = p.1.length + 1 ∧ ∀ c ∈ p.2, c ∈ cs) ∧
      readingList r.1 (r.2.map fun p => mkparent h p.1 p.2) = readingList ks cs := by
  unfold splitParent
  have hzip₁ : (ks.zip (cs.drop 1)).map Prod.fst = ks := List.map_fst_zip (by simp; omega)
  have hzip₂ : (ks.zip (cs.drop 1)).map Prod.snd = cs.drop 1 := List.map_snd_zip (by simp; omega)
  obtain ⟨hl, hparts, hread⟩ := splitParentLoop_spec breakat h (ks.zip (cs.drop 1))
    [] (cs.take 1) (serializeOverhead + serializePerchild) (by simp; omega)
  refine ⟨hl, fun p hp => ⟨(hparts p hp).1, fun c hc => ?_⟩, ?_⟩
  · rcases (hparts p hp).2 c hc with hc | hc
    · exact List.mem_of_mem_take hc
    · rw [hzip₂] at hc
      exact List.mem_of_mem_drop hc
  · rw [hread, List.nil_append, hzip₁, hzip₂, List.take_append_drop]

end Parent

/-! ## `btree_node_split` -/

/-- What a node made from `N` keeps of it: its height, the shape conditions and the absence of
merge marks. -/
structure Keeps (N N' : Node) : Prop where
  height : N'.info.height = N.info.height
  shape : Shape N → Shape N'
  noMarks : NoMarks N → NoMarks N'

theorem Keeps.refl (N : Node) : Keeps N N := ⟨rfl, id, id⟩

theorem Keeps.trans {N N' N'' : Node} (h₁ : Keeps N N') (h₂ : Keeps N' N'') : Keeps N N'' :=
  ⟨h₂.height.trans h₁.height, h₂.shape ∘ h₁.shape, h₂.noMarks ∘ h₁.noMarks⟩

theorem keeps_cacheSize (N : Node) : Keeps N N.cacheSize := by
  refine ⟨by simp, shape_cacheSize.mpr, fun h => ?_⟩
  cases N with
  | leaf m ps => simpa [NoMarks, Node.cacheSize] using h
  | parent m ks cs => simpa [NoMarks, Node.cacheSize] using h

section NodeSplit

variable {pagelen : ℕ}

/-- `btree_node_split` makes one part more than separators. -/
theorem btreeNodeSplit_parts_length {N : Node} (hN : Shape N) :
    (btreeNodeSplit pagelen N).2.length = (btreeNodeSplit pagelen N).1.length + 1 := by
  cases N with
  | leaf m ps => simp [btreeNodeSplit, splitLeaf, splitLeafLoop_length']
  | parent m ks cs =>
    simpa [btreeNodeSplit] using (splitParent_spec (pagelen * 2 / 3) m.height (shape_parent.mp hN).1).1

/-- Every part that `btree_node_split` makes keeps what `Keeps` records of the node. -/
theorem btreeNodeSplit_keeps {N : Node} (hN : Shape N) :
    ∀ p ∈ (btreeNodeSplit pagelen N).2, Keeps N p := by
  cases N with
  | leaf m ps =>
    simp only [btreeNodeSplit, List.mem_map]
    rintro _ ⟨q, -, rfl⟩
    exact ⟨by simpa using (shape_leaf.mp hN).symm, fun _ => shape_mkleaf q,
      fun _ => noMarks_mkleaf q⟩
  | parent m ks cs =>
    obtain ⟨hlen, hcs⟩ := shape_parent.mp hN
    obtain ⟨-, hparts, -⟩ := splitParent_spec (pagelen * 2 / 3) m.height hlen
    simp only [btreeNodeSplit, List.mem_map]
    rintro _ ⟨q, hq, rfl⟩
    obtain ⟨hql, hqc⟩ := hparts q hq
    refine ⟨rfl, fun _ => shape_mkparent hql fun c hc => hcs c (hqc c hc), fun hm => ?_⟩
    exact noMarks_mkparent fun c hc => (every_parent.mp hm).2 c (hqc c hc)

/-- The parts of `btree_node_split` with the separators between them are a rewrite of the
node's reading. -/
theorem btreeNodeSplit_rewrite (hb : serializeOverhead ≤ pagelen * 2 / 3) {N : Node}
    (hN : Shape N) :
    Rewrite (reading N) (readingList (btreeNodeSplit pagelen N).1 (btreeNodeSplit pagelen N).2) := by
  cases N with
  | leaf m ps => simpa [btreeNodeSplit] using splitLeaf_rewrite hb ps
  | parent m ks cs =>
    have := (splitParent_spec (pagelen * 2 / 3) m.height (shape_parent.mp hN).1).2.2
    exact Rewrite.of_eq (by simpa [btreeNodeSplit] using this.symm)

/-- What a child turns into in `splitchildren`: its parts, or itself. -/
theorem pieces_spec (hb : serializeOverhead ≤ pagelen * 2 / 3) {c : Node} (hc : Shape c)
    {seps : List KVLDSKey} {parts : List Node}
    (h : (seps, parts) = btreeNodeSplit pagelen c ∨ (seps, parts) = ([], [c])) :
    parts.length = seps.length + 1 ∧ Rewrite (reading c) (readingList seps parts) ∧
      ∀ p ∈ parts, Keeps c p := by
  rcases h with h | h <;> rw [Prod.ext_iff] at h <;> obtain ⟨rfl, rfl⟩ := h
  · exact ⟨btreeNodeSplit_parts_length hc, btreeNodeSplit_rewrite hb hc, btreeNodeSplit_keeps hc⟩
  · refine ⟨rfl, by simpa using Rewrite.refl (reading c), ?_⟩
    simp only [List.mem_singleton, forall_eq]
    exact Keeps.refl c

end NodeSplit

/-! ## `splitchildren` -/

section SplitChildren

variable {pagelen : ℕ}

/-- One step of the building loop of `splitchildren`: a child is replaced by its parts (or kept),
followed by its separator. -/
theorem splitBuild_cons_eq_some {ks ks' : List KVLDSKey} {c : Node} {cs cs' : List Node} {n : ℕ}
    (h : splitBuild pagelen ks (c :: cs) = some (ks', cs', n)) :
    ∃ seps parts ks₁ cs₁ n₁, splitBuild pagelen (ks.drop 1) cs = some (ks₁, cs₁, n₁) ∧
      ((seps, parts) = btreeNodeSplit pagelen c ∨ (seps, parts) = ([], [c])) ∧
      ks' = seps ++ ks.take 1 ++ ks₁ ∧ cs' = parts ++ cs₁ ∧ n = parts.length - 1 + n₁ := by
  simp only [splitBuild] at h
  split at h
  · cases h
  · rename_i ks₁ cs₁ n₁ hrec
    split at h
    · split at h
      · cases h
        exact ⟨_, _, ks₁, cs₁, n₁, hrec, .inl rfl, rfl, rfl, rfl⟩
      · cases h
    · cases h
      exact ⟨[], [c], ks₁, cs₁, _, hrec, .inr rfl, by simp, rfl, by simp⟩

/-- The building loop of `splitchildren` rewrites the reading of the children, makes one child
more than keys, and adds as many nodes as it makes children beyond the old ones. -/
theorem splitBuild_spec (hb : serializeOverhead ≤ pagelen * 2 / 3) :
    ∀ (cs : List Node) (ks ks' : List KVLDSKey) (cs' : List Node) (n : ℕ),
      cs.length = ks.length + 1 → (∀ c ∈ cs, Shape c) →
      splitBuild pagelen ks cs = some (ks', cs', n) →
      cs'.length = ks'.length + 1 ∧ Rewrite (readingList ks cs) (readingList ks' cs') ∧
        (∀ c' ∈ cs', ∃ c ∈ cs, Keeps c c') ∧ n + cs.length = cs'.length
  | [], _, _, _, _, hlen, _, _ => by simp at hlen
  | c :: cs, ks, ks', cs', n, hlen, hshape, h => by
    obtain ⟨seps, parts, ks₁, cs₁, n₁, hrec, hpieces, rfl, rfl, rfl⟩ := splitBuild_cons_eq_some h
    obtain ⟨hpl, hpr, hpk⟩ := pieces_spec hb (hshape c List.mem_cons_self) hpieces
    have hkeeps : ∀ c' ∈ parts ++ cs₁, (∀ c' ∈ cs₁, ∃ c ∈ cs, Keeps c c') →
        ∃ d ∈ c :: cs, Keeps d c' := by
      intro c' hc' hrest
      rcases List.mem_append.mp hc' with hc' | hc'
      · exact ⟨c, List.mem_cons_self, hpk c' hc'⟩
      · obtain ⟨d, hd, hk⟩ := hrest c' hc'
        exact ⟨d, List.mem_cons_of_mem _ hd, hk⟩
    obtain _ | ⟨k, ks⟩ := ks
    · -- the last child: nothing follows it
      obtain rfl : cs = [] := List.length_eq_zero_iff.mp (by simpa using hlen)
      simp only [splitBuild, Option.some.injEq, Prod.mk.injEq] at hrec
      obtain ⟨rfl, rfl, rfl⟩ := hrec
      refine ⟨by simpa using hpl, by simpa using hpr, fun c' hc' => hkeeps c' hc' (by simp), ?_⟩
      simp
      omega
    · -- a child followed by its separator `k`
      obtain ⟨hl₁, hr₁, hk₁, hn₁⟩ := splitBuild_spec hb cs ks ks₁ cs₁ n₁ (by simpa using hlen)
        (fun d hd => hshape d (List.mem_cons_of_mem _ hd)) (by simpa using hrec)
      refine ⟨by simp [hpl, hl₁]; omega, ?_, fun c' hc' => hkeeps c' hc' hk₁, ?_⟩
      · have hread := readingList_append_cons hpl k ks₁ cs₁
        simp only [List.take_succ_cons, List.take_zero, List.append_assoc, List.singleton_append]
        rw [hread, readingList_cons_cons]
        exact hpr.append (hr₁.cons_left _)
      · simp
        omega

/-- The part of `splitchildren` after the recursion keeps the keys of the parent's pieces in
order and the shape of its children. -/
theorem splitchildrenBody_spec (hb : serializeOverhead ≤ pagelen * 2 / 3) {m : NodeInfo}
    {ks : List KVLDSKey} {cs : List Node} {n n' : ℕ} {N' : Node}
    (hlen : cs.length = ks.length + 1) (hshape : ∀ c ∈ cs, Shape c)
    (h : splitchildrenBody pagelen m ks cs n = some (N', n')) :
    ∃ ks' cs', N' = .parent m ks' cs' ∧ cs'.length = ks'.length + 1 ∧
      Rewrite (readingList ks cs) (readingList ks' cs') ∧ (∀ c' ∈ cs', ∃ c ∈ cs, Keeps c c') ∧
      n' + cs.length = n + cs'.length := by
  have hread := readingList_map_cacheSize ks cs
  simp only [splitchildrenBody] at h
  split at h
  · cases h
    refine ⟨ks, _, rfl, by simpa using hlen, Rewrite.of_eq hread.symm, ?_, by simp⟩
    simp only [List.mem_map]
    rintro _ ⟨c, hc, rfl⟩
    exact ⟨c, hc, keeps_cacheSize c⟩
  · split at h
    · cases h
    · split at h
      · cases h
      · rename_i ks₁ cs₁ n₁ hbuild
        split at h
        · cases h
          obtain ⟨hl, hr, hk, hn⟩ := splitBuild_spec hb (cs.map Node.cacheSize) ks ks₁ cs₁ n₁
            (by simpa using hlen) (by simpa using hshape) hbuild
          refine ⟨ks₁, cs₁, rfl, hl, hread ▸ hr, fun c' hc' => ?_, by simp at hn; omega⟩
          obtain ⟨d, hd, hkd⟩ := hk c' hc'
          obtain ⟨c, hc, rfl⟩ := List.mem_map.mp hd
          exact ⟨c, hc, (keeps_cacheSize c).trans hkd⟩
        · cases h

/-- `splitchildren` on each child relates every child to its result by what `splitchildren`
establishes of one node. -/
theorem splitchildrenList_forall₂ {r : Node → Node → Prop} {cs : List Node}
    (ih : ∀ c ∈ cs, ∀ {n c' n'}, splitchildren pagelen c n = some (c', n') → r c c') :
    ∀ {n cs' n'}, splitchildrenList pagelen cs n = some (cs', n') → List.Forall₂ r cs cs' := by
  induction cs with
  | nil =>
    intro n cs' n' h
    simp only [splitchildrenList, Option.some.injEq, Prod.mk.injEq] at h
    obtain ⟨rfl, -⟩ := h
    exact .nil
  | cons c cs ihcs =>
    intro n cs' n' h
    simp only [splitchildrenList] at h
    split at h
    · cases h
    · rename_i c' n₁ hc
      split at h
      · cases h
      · rename_i cs₁ n₂ hcs
        cases h
        exact .cons (ih c List.mem_cons_self hc)
          (ihcs (fun d hd => ih d (List.mem_cons_of_mem _ hd)) hcs)

/-- `splitchildren` keeps the height, the shape and the absence of marks of a well-shaped
subtree, and rewrites its reading. -/
theorem splitchildren_spec (hb : serializeOverhead ≤ pagelen * 2 / 3) (N : Node) :
    Shape N → ∀ {n N' n'}, splitchildren pagelen N n = some (N', n') →
      Keeps N N' ∧ Rewrite (reading N) (reading N') := by
  induction N using Node.ind with
  | leaf m ps =>
    intro _ n N' n' h
    simp only [splitchildren, Option.some.injEq, Prod.mk.injEq] at h
    obtain ⟨rfl, -⟩ := h
    exact ⟨Keeps.refl _, Rewrite.refl _⟩
  | parent m ks cs ih =>
    intro hN n N' n' h
    obtain ⟨hlen, hcs⟩ := shape_parent.mp hN
    simp only [splitchildren] at h
    split_ifs at h with hdirty
    · split at h
      · cases h
      · rename_i cs₁ n₁ hlist
        -- the children after the recursion, related one by one to the old ones
        have h₂ : List.Forall₂ (fun c c' => Keeps c c' ∧ Rewrite (reading c) (reading c')) cs cs₁ :=
          splitchildrenList_forall₂ (fun c hc => ih c hc (hcs c hc).2) hlist
        have hold : ∀ c₁ ∈ cs₁, ∃ c ∈ cs, Keeps c c₁ := fun c₁ hc₁ =>
          (forall₂_exists_of_mem_right h₂ hc₁).imp fun _ hck => ⟨hck.1, hck.2.1⟩
        obtain ⟨ks', cs', rfl, hl', hr', hk', -⟩ := splitchildrenBody_spec hb
          (h₂.length_eq ▸ hlen) (fun c₁ hc₁ => by
            obtain ⟨c, hc, hk⟩ := hold c₁ hc₁
            exact hk.shape (hcs c hc).2) h
        -- every new child comes from an old child, through the recursion and the split
        have hnew : ∀ c' ∈ cs', ∃ c ∈ cs, Keeps c c' := fun c' hc' => by
          obtain ⟨c₁, hc₁, hk₁⟩ := hk' c' hc'
          obtain ⟨c, hc, hk⟩ := hold c₁ hc₁
          exact ⟨c, hc, hk.trans hk₁⟩
        refine ⟨⟨rfl, fun _ => shape_parent.mpr ⟨hl', fun c' hc' => ?_⟩, fun hm => ?_⟩, ?_⟩
        · obtain ⟨c, hc, hk⟩ := hnew c' hc'
          exact ⟨hk.height ▸ (hcs c hc).1, hk.shape (hcs c hc).2⟩
        · refine every_parent.mpr ⟨(every_parent.mp hm).1, fun c' hc' => ?_⟩
          obtain ⟨c, hc, hk⟩ := hnew c' hc'
          exact hk.noMarks ((every_parent.mp hm).2 c hc)
        · exact (readingList_rewrite (h₂.imp fun _ _ h => h.2) ks).trans hr'
    · simp only [Option.some.injEq, Prod.mk.injEq] at h
      obtain ⟨rfl, -⟩ := h
      exact ⟨Keeps.refl _, Rewrite.refl _⟩

end SplitChildren

/-! ## `splitroot` and `splittree` -/

section SplitTree

variable {pagelen : ℕ}

theorem splitroot_height {N R : Node} {n n' : ℕ} (h : splitroot pagelen N n = some (R, n')) :
    R.info.height = N.info.height + 1 := by
  simp only [splitroot] at h
  split_ifs at h
  cases h
  rfl

/-- The new root of `splitroot` is a well-shaped parent of the parts of the old root, read as
the old root with separators between the parts. -/
theorem splitroot_spec (hb : serializeOverhead ≤ pagelen * 2 / 3) {N R : Node} {n n' : ℕ}
    (hN : Shape N) (h : splitroot pagelen N n = some (R, n')) :
    Shape R ∧ (NoMarks N → NoMarks R) ∧ Rewrite (reading N) (reading R) := by
  simp only [splitroot] at h
  split_ifs at h
  cases h
  have hk : ∀ p ∈ (btreeNodeSplit pagelen N).2, Keeps N p := btreeNodeSplit_keeps hN
  refine ⟨shape_parent.mpr ⟨btreeNodeSplit_parts_length hN, fun c hc => ?_⟩, fun hm => ?_, ?_⟩
  · exact ⟨by simp [(hk c hc).height, mknodeInfo], (hk c hc).shape hN⟩
  · exact every_parent.mpr ⟨rfl, fun c hc => (hk c hc).noMarks hm⟩
  · simpa using btreeNodeSplit_rewrite hb hN

/-- The loop of `splittree` keeps the shape and the absence of marks, and rewrites the
reading of the root. -/
theorem splitrootLoop_spec (hb : serializeOverhead ≤ pagelen * 2 / 3) :
    ∀ (fuel : ℕ) (R : Node) (n : ℕ) {R' : Node} {n' : ℕ}, Shape R →
      splitrootLoop pagelen fuel R n = some (R', n') →
      Shape R' ∧ (NoMarks R → NoMarks R') ∧ Rewrite (reading R) (reading R')
  | 0, _, _, _, _, _, h => by simp [splitrootLoop] at h
  | fuel + 1, R, n, R', n', hR, h => by
    simp only [splitrootLoop] at h
    split_ifs at h
    · split at h
      · cases h
      · rename_i R₁ n₁ hroot
        obtain ⟨hs₁, hm₁, hr₁⟩ := splitroot_spec hb (shape_cacheSize.mpr hR) hroot
        obtain ⟨hs', hm', hr'⟩ := splitrootLoop_spec hb fuel R₁ n₁ hs₁ h
        exact ⟨hs', fun hm => hm' (hm₁ ((keeps_cacheSize R).noMarks hm)),
          (Rewrite.of_eq (reading_cacheSize R).symm).trans (hr₁.trans hr')⟩
    · simp only [Option.some.injEq, Prod.mk.injEq] at h
      obtain ⟨rfl, -⟩ := h
      exact ⟨shape_cacheSize.mpr hR, (keeps_cacheSize R).noMarks, Rewrite.of_eq (by simp)⟩

/-- The fuel of the loop of `splittree` is never the limit: `splitroot` asserts that the new
root is below height 64, so a root at height `h` is split at most `63 - h` times. -/
theorem splitrootLoop_fuel :
    ∀ (fuel : ℕ) (R : Node) (n : ℕ), 64 ≤ fuel + 1 + R.info.height →
      splitrootLoop pagelen (fuel + 1) R n = splitrootLoop pagelen (fuel + 2) R n
  | fuel, R, n, hfuel => by
    rw [splitrootLoop, splitrootLoop]
    split_ifs with hover
    · cases hroot : splitroot pagelen R.cacheSize n with
      | none => rfl
      | some r =>
        obtain ⟨R₁, n₁⟩ := r
        have hh := splitroot_height hroot
        simp only [cacheSize_info] at hh
        cases fuel with
        | zero =>
          -- a root at height 63 cannot be split
          simp only [splitroot, cacheSize_info] at hroot
          split_ifs at hroot with h₁
          · omega
        | succ fuel =>
          simp only
          exact splitrootLoop_fuel fuel R₁ n₁ (by omega)
    · rfl

/-- `splittree` keeps the shape and the absence of marks, and rewrites the reading. -/
theorem splittree_spec (hb : serializeOverhead ≤ pagelen * 2 / 3) {R R' : Node} {n n' : ℕ}
    (hR : Shape R) (h : splittree pagelen R n = some (R', n')) :
    Shape R' ∧ (NoMarks R → NoMarks R') ∧ Rewrite (reading R) (reading R') := by
  simp only [splittree] at h
  split at h
  · cases h
  · rename_i R₁ n₁ hsplit
    obtain ⟨hk₁, hr₁⟩ := splitchildren_spec hb R hR hsplit
    obtain ⟨hs', hm', hr'⟩ := splitrootLoop_spec hb 64 R₁ n₁ (hk₁.shape hR) h
    exact ⟨hs', hm' ∘ hk₁.noMarks, hr₁.trans hr'⟩

end SplitTree

end Kivaloo.Kvlds
