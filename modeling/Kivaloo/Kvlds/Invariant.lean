import Kivaloo.Lib.Reading
import Kivaloo.Kvlds.Merge

/-!
# The search-tree invariant

The B+Tree conditions that rebalancing must keep, stated over the model of `struct node`:

* `Shape`: a parent with `n` keys has `n + 1` children, each one level lower, and leaves are
  at height zero;
* `Ordered`: the reading of the tree (its pairs and separators, left to right) is sorted, so
  leaf keys strictly increase and a key stored under child `i` of a parent lies in
  `[keys[i-1], keys[i])`, the separators themselves lying strictly inside the parent's range;
* `NoMarks`: no node is marked `merging`, as after every complete rebalancing.

`Every P N` states `P` of every node of the subtree `N`; `Planned` is what holds between
`planmergenode` and `domergenode`: marks only on children of dirty parents, never on a last
child.
-/

namespace Kivaloo.Kvlds

open Kivaloo.Lib Node

/-! ## Readings -/

/-- An item of the reading of a B+Tree: a stored key-value pair or a separator. -/
abbrev Item := Tok KVLDSKey KVLDSKey

/-- A stored pair as an item. -/
def pairItem (p : KVLDSKey × KVLDSKey) : Item := .key p.1 p.2

mutual

/-- The reading of a subtree. -/
def reading : Node → List Item
  | .leaf _ ps => ps.map pairItem
  | .parent _ ks cs => readingList ks cs

/-- The reading of the children `cs` of a parent, each followed by its separator in `ks`. -/
def readingList : List KVLDSKey → List Node → List Item
  | _, [] => []
  | ks, c :: cs => reading c ++ (ks.head?.map Tok.sep).toList ++ readingList ks.tail cs

end

@[simp] theorem reading_leaf (m ps) : reading (.leaf m ps) = ps.map pairItem := by
  simp [reading]

@[simp] theorem reading_parent (m ks cs) : reading (.parent m ks cs) = readingList ks cs := by
  simp [reading]

@[simp] theorem readingList_nil (ks : List KVLDSKey) : readingList ks [] = [] := by
  simp [readingList]

@[simp] theorem readingList_cons_cons (k : KVLDSKey) (ks : List KVLDSKey) (c : Node)
    (cs : List Node) : readingList (k :: ks) (c :: cs) = reading c ++ .sep k :: readingList ks cs := by
  simp [readingList]

@[simp] theorem readingList_nil_cons (c : Node) (cs : List Node) :
    readingList [] (c :: cs) = reading c ++ readingList [] cs := by
  simp [readingList]

@[simp] theorem reading_setInfo (N : Node) (m : NodeInfo) : reading (N.setInfo m) = reading N := by
  cases N <;> simp

@[simp] theorem reading_cacheSize (N : Node) : reading N.cacheSize = reading N := by
  simp [Node.cacheSize]

@[simp] theorem reading_dirtyCopy (N : Node) : reading N.dirtyCopy = reading N := by
  simp [Node.dirtyCopy]

@[simp] theorem reading_setMerging (N : Node) (b : Bool) : reading (N.setMerging b) = reading N := by
  simp [Node.setMerging]

/-- Children replaced by nodes with the same readings read the same. -/
theorem readingList_map_of_reading (ks : List KVLDSKey) {cs : List Node} {f : Node → Node}
    (hf : ∀ c ∈ cs, reading (f c) = reading c) : readingList ks (cs.map f) = readingList ks cs := by
  induction cs generalizing ks with
  | nil => rfl
  | cons c cs ih =>
    have hc := hf c List.mem_cons_self
    have hcs := fun ks => ih ks (fun d hd => hf d (List.mem_cons_of_mem _ hd))
    obtain _ | ⟨k, ks⟩ := ks <;> simp [hc, hcs]

@[simp] theorem readingList_map_cacheSize (ks : List KVLDSKey) (cs : List Node) :
    readingList ks (cs.map Node.cacheSize) = readingList ks cs :=
  readingList_map_of_reading ks (fun c _ => reading_cacheSize c)

/-- The children of a parent part, the separator promoted after it, then the rest. -/
theorem readingList_append_cons {ks₁ : List KVLDSKey} {cs₁ : List Node}
    (h : cs₁.length = ks₁.length + 1) (k : KVLDSKey) (ks₂ : List KVLDSKey) (cs₂ : List Node) :
    readingList (ks₁ ++ k :: ks₂) (cs₁ ++ cs₂) = readingList ks₁ cs₁ ++ .sep k :: readingList ks₂ cs₂ := by
  induction cs₁ generalizing ks₁ with
  | nil => simp at h
  | cons c cs₁ ih =>
    obtain _ | ⟨k', ks₁⟩ := ks₁
    · obtain rfl : cs₁ = [] := List.length_eq_zero_iff.mp (by simpa using h)
      simp
    · simp [ih (by simpa using h)]

/-- Dropping the separators from the reading of children gives their pairs. -/
theorem filterMap_entry_readingList (ks : List KVLDSKey) {cs : List Node}
    (h : ∀ c ∈ cs, (reading c).filterMap Tok.entry = c.inorder) :
    (readingList ks cs).filterMap Tok.entry = (cs.map inorder).flatten := by
  induction cs generalizing ks with
  | nil => simp
  | cons c cs ih =>
    have hc := h c (by simp)
    have hcs := ih ks.tail (fun d hd => h d (by simp [hd]))
    obtain _ | ⟨k, ks⟩ := ks <;> simp_all [List.filterMap_append, List.filterMap_cons]

/-- Dropping the separators from the reading of a subtree gives its pairs. -/
theorem filterMap_entry_reading (N : Node) : (reading N).filterMap Tok.entry = N.inorder := by
  induction N using Node.ind with
  | leaf m ps => simp [List.filterMap_map, Function.comp_def, pairItem]
  | parent m ks cs ih => simpa using filterMap_entry_readingList ks ih

/-- A subtree is ordered when its reading is sorted. -/
def Ordered (N : Node) : Prop := (reading N).Pairwise Tok.Before

instance (N : Node) : Decidable (Ordered N) := inferInstanceAs (Decidable (List.Pairwise _ _))

/-- A rewrite of the reading that keeps the pairs keeps the in-order pairs. -/
theorem inorder_eq_of_rewrite {N N' : Node} (h : Rewrite (reading N) (reading N')) :
    N'.inorder = N.inorder := by
  rw [← filterMap_entry_reading, ← filterMap_entry_reading, h.entries]

/-! ## Properties of every node -/

mutual

/-- `P` holds of every node of the subtree. -/
def Every (P : Node → Prop) : Node → Prop
  | .leaf m ps => P (.leaf m ps)
  | .parent m ks cs => P (.parent m ks cs) ∧ EveryList P cs

/-- `P` holds of every node of each subtree. -/
def EveryList (P : Node → Prop) : List Node → Prop
  | [] => True
  | c :: cs => Every P c ∧ EveryList P cs

end

section Every

variable {P : Node → Prop}

theorem everyList_iff {cs : List Node} : EveryList P cs ↔ ∀ c ∈ cs, Every P c := by
  induction cs with
  | nil => simp [EveryList]
  | cons c cs ih => simp [EveryList, ih]

@[simp] theorem every_leaf {m ps} : Every P (.leaf m ps) ↔ P (.leaf m ps) := by simp [Every]

@[simp] theorem every_parent {m ks cs} :
    Every P (.parent m ks cs) ↔ P (.parent m ks cs) ∧ ∀ c ∈ cs, Every P c := by
  simp [Every, everyList_iff]

theorem Every.self {N : Node} (h : Every P N) : P N := by
  cases N with
  | leaf m ps => simpa using h
  | parent m ks cs => exact (every_parent.mp h).1

theorem Every.of_mem_children {N c : Node} (h : Every P N) (hc : c ∈ N.children) : Every P c := by
  cases N with
  | leaf m ps => simp [Node.children] at hc
  | parent m ks cs => exact (every_parent.mp h).2 c hc

mutual

/-- Whether `p` holds of every node of the subtree, computed. -/
def allNodes (p : Node → Bool) : Node → Bool
  | .leaf m ps => p (.leaf m ps)
  | .parent m ks cs => p (.parent m ks cs) && allNodesList p cs

/-- Whether `p` holds of every node of each subtree, computed. -/
def allNodesList (p : Node → Bool) : List Node → Bool
  | [] => true
  | c :: cs => allNodes p c && allNodesList p cs

end

theorem allNodes_iff {p : Node → Bool} (N : Node) : allNodes p N = true ↔ Every (p · = true) N := by
  induction N using Node.ind with
  | leaf m ps => simp [allNodes]
  | parent m ks cs ih =>
    have hlist : allNodesList p cs = true ↔ ∀ c ∈ cs, Every (p · = true) c := by
      induction cs with
      | nil => simp [allNodesList]
      | cons c cs ihcs =>
        simp only [allNodesList, Bool.and_eq_true, List.forall_mem_cons]
        rw [ih c List.mem_cons_self, ihcs fun d hd => ih d (List.mem_cons_of_mem _ hd)]
    simp [allNodes, hlist]

instance {p : Node → Bool} (N : Node) : Decidable (Every (p · = true) N) :=
  decidable_of_iff _ (allNodes_iff N)

end Every

/-! ## Shape -/

/-- The shape conditions at one node: leaves at height zero; a parent with `n` keys has
`n + 1` children one level lower. -/
def ShapeAt : Node → Prop
  | .leaf m _ => m.height = 0
  | .parent m ks cs => cs.length = ks.length + 1 ∧ ∀ c ∈ cs, c.info.height + 1 = m.height

/-- The shape conditions hold throughout the subtree. -/
def Shape (N : Node) : Prop := Every ShapeAt N

@[simp] theorem shape_leaf {m ps} : Shape (.leaf m ps) ↔ m.height = 0 := by
  simp [Shape, ShapeAt]

theorem shape_parent {m ks cs} : Shape (.parent m ks cs) ↔ cs.length = ks.length + 1 ∧
    ∀ c ∈ cs, c.info.height + 1 = m.height ∧ Shape c := by
  simp only [Shape, every_parent, ShapeAt]
  constructor
  · rintro ⟨⟨hlen, hh⟩, hc⟩
    exact ⟨hlen, fun c mc => ⟨hh c mc, hc c mc⟩⟩
  · rintro ⟨hlen, hc⟩
    exact ⟨⟨hlen, fun c mc => (hc c mc).1⟩, fun c mc => (hc c mc).2⟩

/-- Changing the fields but not the height keeps the shape. -/
theorem shape_setInfo {N : Node} {m : NodeInfo} (h : m.height = N.info.height) :
    Shape (N.setInfo m) ↔ Shape N := by
  cases N with
  | leaf m' ps => simp_all
  | parent m' ks cs => simp_all [shape_parent]

@[simp] theorem shape_cacheSize {N : Node} : Shape N.cacheSize ↔ Shape N :=
  shape_setInfo (by simp)

@[simp] theorem shape_dirtyCopy {N : Node} : Shape N.dirtyCopy ↔ Shape N :=
  shape_setInfo (by simp [mknodeInfo])

@[simp] theorem shape_setMerging {N : Node} {b : Bool} : Shape (N.setMerging b) ↔ Shape N :=
  shape_setInfo rfl

/-- In a well-shaped tree the leaves are exactly the nodes at height zero. -/
theorem Shape.isLeaf_iff {N : Node} (h : Shape N) : N.isLeaf = true ↔ N.info.height = 0 := by
  cases N with
  | leaf m ps => simpa [Node.isLeaf] using h
  | parent m ks cs =>
    obtain ⟨hlen, hcs⟩ := shape_parent.mp h
    obtain ⟨c, hc⟩ : ∃ c, c ∈ cs := List.exists_mem_of_length_pos (by omega)
    have := (hcs c hc).1
    simp [Node.isLeaf]
    omega

/-! ## Merge marks -/

/-- No node of the subtree is marked `merging`. -/
def NoMarks (N : Node) : Prop := Every (fun N => N.info.merging = false) N

/-- The marks `planmergenode` leaves: under a dirty parent on any child but the last; under
any other parent, on no node below it. -/
def PlannedAt : Node → Prop
  | .leaf _ _ => True
  | .parent m _ cs =>
    if m.state = .dirty then ∀ c ∈ cs.getLast?, c.info.merging = false
    else ∀ c ∈ cs, NoMarks c

/-- Marks as `planmergenode` leaves them throughout the subtree. -/
def Planned (N : Node) : Prop := Every PlannedAt N

/-- A subtree without marks is as planned. -/
theorem NoMarks.planned {N : Node} (h : NoMarks N) : Planned N := by
  induction N using Node.ind with
  | leaf m ps => simp [Planned, PlannedAt]
  | parent m ks cs ih =>
    have hcs : ∀ c ∈ cs, NoMarks c := (every_parent.mp h).2
    refine every_parent.mpr ⟨?_, fun c hc => ih c hc (hcs c hc)⟩
    simp only [PlannedAt]
    split
    · intro c hc
      exact (hcs c (List.mem_of_getLast? hc)).self
    · exact hcs

/-! ## The balancing conditions of kvlds/DESIGN -/

/-- The serialized size of the node that merging adjacent children `a` and `b`, separated by
`k`, would produce. -/
def mergedSize (a : Node) (k : KVLDSKey) (b : Node) : ℕ := computeSize (btreeNodeMerge [a, b] [k])

/-- Condition 4 over the children `cs` with separators `ks`: merging any two adjacent children
would produce a node above two thirds of a page. -/
def adjacentMergesTooBig (pagelen : ℕ) : List KVLDSKey → List Node → Bool
  | k :: ks, a :: b :: cs =>
    decide (pagelen * 2 / 3 < mergedSize a k b) && adjacentMergesTooBig pagelen ks (b :: cs)
  | _, _ => true

/-- Conditions 1 and 4 at one node: a parent has a child, and no two adjacent children could be
merged within two thirds of a page. -/
def balancedAt (pagelen : ℕ) : Node → Bool
  | .leaf _ _ => true
  | .parent _ ks cs => !cs.isEmpty && adjacentMergesTooBig pagelen ks cs

/-- Balancing conditions 1, 2 and 4 of a tree with root `R` (condition 3, that every node fits
in a page, is the subject of `serialize`'s assertion). -/
def Balanced (pagelen : ℕ) (R : Node) : Prop :=
  Every (balancedAt pagelen · = true) R ∧ (R.isLeaf = false → 2 ≤ R.children.length)

instance (pagelen : ℕ) (R : Node) : Decidable (Balanced pagelen R) :=
  inferInstanceAs (Decidable (_ ∧ _))

/-! ## The invariant -/

/-- The conditions of a B+Tree which rebalancing keeps: the shape conditions, sorted keys and
separators, and no merge marks. -/
structure SearchTree (N : Node) : Prop where
  shape : Shape N
  ordered : Ordered N
  noMarks : NoMarks N

end Kivaloo.Kvlds
