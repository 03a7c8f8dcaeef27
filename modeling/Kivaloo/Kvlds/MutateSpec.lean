import Kivaloo.Lib.AssocList
import Kivaloo.Kvlds.Mutate

/-!
# What a request does to a leaf

kvlds/DESIGN describes the store as a map from keys to values on which each modifying request
acts under a condition on the current value of its key: SET always, CAS when the value is
`oval`, ADD when there is none, MODIFY when there is one, DELETE always, CAD when the value is
`oval`.  The protocol (lib/proto_kvlds/proto_kvlds.h) answers CAS, ADD, MODIFY and CAD with
status 0 when the value was set or deleted, 1 otherwise.  `MRequest.apply` and `seqRun` state
this, one request after another.

On a leaf, the switch of `batch_run` chooses the operation that has this effect
(`apply_eq_batchRunOp`) and sets `opdone` exactly when the condition holds, DELETE of an absent
key apart, which has no effect and no status (`status_batchRunOp`); the switch of `batch_dirty`
chooses the same operation from the committed pair (`batchDirtyNeeds_eq`).

A mutable leaf stands for the map of its keys with values (`MutableLeaf.get`).  While its array
is sorted, its keys are distinct and `mlen_n` is a prefix length all of them share
(`MutableLeaf.WF`), and while the key of a request shares the leaf's `mlen_t` with the keys of
the array, `batch_run` performs the request on that map (`batchRunReq_performs`), and
`btree_mutate_immutable` turns it into sorted pairs with the same lookups
(`btreeMutateImmutable_spec`).
-/

namespace Kivaloo.Kvlds

open Kivaloo.Lib Node KVLDSKey

/-! ## The key-value map of kvlds/DESIGN -/

/-- A key-value map: the value of each key, if any. -/
abbrev KVMap := KVLDSKey → Option KVLDSKey

/-- The map that a list of key-value pairs stands for. -/
def toMap (ps : List (KVLDSKey × KVLDSKey)) : KVMap := fun k => ps.lookup k

namespace MRequest

/-- The condition under which a request acts, given the current value of its key. -/
def cond (R : MRequest) (cur : Option KVLDSKey) : Bool :=
  match R.type with
  | .set | .delete => true
  | .cas | .cad => decide (cur = some R.oval)
  | .add => cur.isNone
  | .modify => cur.isSome

/-- The value a request gives its key when it acts: none for DELETE and CAD. -/
def newValue (R : MRequest) : Option KVLDSKey :=
  match R.type with
  | .set | .cas | .add | .modify => some R.value
  | .delete | .cad => none

/-- A request run on the map. -/
def apply (R : MRequest) (M : KVMap) : KVMap :=
  if R.cond (M R.key) then Function.update M R.key R.newValue else M

/-- The status the protocol answers a request with, given the value its key had: none for SET
and DELETE, 0 when the condition held and 1 otherwise. -/
def status (R : MRequest) (cur : Option KVLDSKey) : Option ℕ :=
  match R.type with
  | .set | .delete => none
  | .cas | .add | .modify | .cad => some (if R.cond cur then 0 else 1)

/-- A request changes the map at its own key only. -/
theorem apply_of_ne (R : MRequest) (M : KVMap) {k : KVLDSKey} (hk : k ≠ R.key) :
    R.apply M k = M k := by
  unfold apply
  split_ifs <;> simp [Function.update_of_ne hk]

end MRequest

/-- The requests run one after the other on the map `M`: the map at the end and the status of
each request. -/
def seqRun : List MRequest → KVMap → KVMap × List (Option ℕ)
  | [], M => (M, [])
  | R :: rs, M =>
    let rest := seqRun rs (R.apply M)
    (rest.1, R.status (M R.key) :: rest.2)

/-! ## The switches of `batch_dirty` and `batch_run` -/

/-- The effect of the operation `batch_run` chooses is the request's effect on the map. -/
theorem apply_eq_batchRunOp (R : MRequest) (M : KVMap) :
    R.apply M = match batchRunOp R (M R.key) with
      | .add | .modify => Function.update M R.key (some R.value)
      | .delete => Function.update M R.key none
      | .none => M := by
  unfold MRequest.apply MRequest.cond MRequest.newValue batchRunOp
  -- DELETE of an absent key sets the value the key already has
  cases hT : R.type <;> cases hv : M R.key <;>
    simp [cmp_eq_zero_iff, eq_comm (a := R.oval), hv] <;> split_ifs <;> rfl

/-- `opdone`, set when `batch_run` chooses an operation, gives the status of the request. -/
theorem status_batchRunOp (R : MRequest) (cur : Option KVLDSKey) :
    responseStatus R (decide (batchRunOp R cur ≠ .none)) = R.status cur := by
  unfold responseStatus MRequest.status MRequest.cond batchRunOp
  cases hT : R.type <;> cases cur <;> simp [cmp_eq_zero_iff, eq_comm (a := R.oval)]

/-- `batch_dirty` dirties a leaf for a request exactly when `batch_run` would choose an
operation for it on the committed pair. -/
theorem batchDirtyNeeds_eq (R : MRequest) (kv : Option (KVLDSKey × KVLDSKey)) :
    batchDirtyNeeds R kv = decide (batchRunOp R (kv.map Prod.snd) ≠ .none) := by
  unfold batchDirtyNeeds batchRunOp
  cases hT : R.type <;> rcases kv with _ | ⟨k, v⟩ <;> simp <;> rw [Bool.eq_iff_iff] <;> simp

/-- Without a value there is nothing to modify or delete. -/
theorem batchRunOp_none_ne_modify (R : MRequest) : batchRunOp R none ≠ .modify := by
  unfold batchRunOp
  cases R.type <;> simp

theorem batchRunOp_none_ne_delete (R : MRequest) : batchRunOp R none ≠ .delete := by
  unfold batchRunOp
  cases R.type <;> simp

/-! ## Binary search over sorted pairs -/

/-- Pairs sorted by keys that share `m` bytes with `k` are sorted around `k` for the comparison
`kvldskey_cmp2` from `m`. -/
theorem sortedAround_pairs {β : Type} {ps : List (KVLDSKey × β)}
    (hs : ps.Pairwise fun p q => p.1 < q.1) {m : ℕ} {k : KVLDSKey}
    (hp : ∀ p ∈ ps, SharePrefix m k p.1) : SortedAround (fun p => kvldskeyCmp2 k p.1 m) ps := by
  refine hs.imp_of_mem fun {x y} hx hy hxy hy0 => ?_
  dsimp only at hy0 ⊢
  rw [cmp2_eq_cmp (hp x hx), cmp_pos_iff]
  rw [cmp2_eq_cmp (hp y hy), ← not_lt, cmp_neg_iff, not_lt] at hy0
  exact lt_of_lt_of_le hxy hy0

/-- The binary search of a leaf hits a pair with the key, or misses when there is none. -/
theorem bsearch_pairs {β : Type} {ps : List (KVLDSKey × β)}
    (hs : ps.Pairwise fun p q => p.1 < q.1) {m : ℕ} {k : KVLDSKey}
    (hp : ∀ p ∈ ps, SharePrefix m k p.1) (d : KVLDSKey × β) :
    match bsearch (fun p => kvldskeyCmp2 k p.1 m) ps d with
    | .hit i => ∃ h : i < ps.length, ps[i].1 = k
    | .miss _ => k ∉ ps.map Prod.fst := by
  have hspec := bsearch_spec (sortedAround_pairs hs hp) d
  split
  · next i hi =>
    rw [hi] at hspec
    obtain ⟨h, hc, -, -⟩ := hspec
    dsimp only at hc
    rw [cmp2_eq_cmp (hp _ (List.getElem_mem h)), cmp_eq_zero_iff] at hc
    exact ⟨h, hc.symm⟩
  · next lo hlo =>
    rw [hlo] at hspec
    obtain ⟨-, -, hbelow, habove⟩ := hspec
    intro hk
    obtain ⟨i, hi, hik⟩ := List.getElem_of_mem hk
    rw [List.getElem_map] at hik
    have hi' : i < ps.length := by simpa using hi
    have hc : kvldskeyCmp2 k ps[i].1 m = 0 := by
      rw [cmp2_eq_cmp (hp _ (List.getElem_mem _)), hik, cmp_eq_zero_iff]
    by_cases hlt : i < lo
    · have := hbelow i (by simpa using hi) hlt
      dsimp only at this
      omega
    · have := habove i (by simpa using hi) (by omega)
      dsimp only at this
      omega

/-! ## The mutable leaf as a map -/

namespace MutableLeaf

/-- The keys of a mutable leaf: those of the array, then those of the hash table. -/
def keys (L : MutableLeaf) : List KVLDSKey := (L.pairs ++ L.hash).map Prod.fst

/-- The map a mutable leaf stands for: a key deleted or absent has no value. -/
def get (L : MutableLeaf) : KVMap := fun k => ((L.pairs ++ L.hash).lookup k).join

/-- The invariant of a mutable leaf: the array is sorted, the keys are distinct, and all of
them share their first `mlen_n` bytes. -/
structure WF (L : MutableLeaf) : Prop where
  sorted : L.pairs.Pairwise fun p q => p.1 < q.1
  nodup : L.keys.Nodup
  prefixN : ∀ x ∈ L.keys, ∀ y ∈ L.keys, SharePrefix L.info.mlenN x y

/-- The slot `s` is where the key `k` is: its position in the array or in the hash table, or a
free slot of the hash table when the leaf does not hold the key. -/
def SlotFor (L : MutableLeaf) (k : KVLDSKey) : Slot → Prop
  | .pairs i => ∃ h : i < L.pairs.length, L.pairs[i].1 = k
  | .hash i => ∃ h : i < L.hash.length, L.hash[i].1 = k
  | .free => k ∉ L.keys

theorem get_of_not_mem {L : MutableLeaf} {k : KVLDSKey} (hk : k ∉ L.keys) : L.get k = none := by
  simp [get, lookup_eq_none_of_not_mem hk]

/-- The value of a pair of the leaf. -/
theorem get_of_mem {L : MutableLeaf} (hL : L.WF) {p : KVLDSKey × Option KVLDSKey}
    (hp : p ∈ L.pairs ++ L.hash) : L.get p.1 = p.2 := by
  simp [get, (lookup_eq_some_iff_mem hL.nodup).mpr hp]

theorem mem_keys_pairs {L : MutableLeaf} {x : KVLDSKey} (hx : x ∈ L.pairs.map Prod.fst) :
    x ∈ L.keys := by
  simp only [keys, List.map_append, List.mem_append]
  exact Or.inl hx

/-- The value in the slot of a key is the key's value. -/
theorem value_eq_get {L : MutableLeaf} (hL : L.WF) {k : KVLDSKey} {s : Slot}
    (hs : L.SlotFor k s) : L.value s = L.get k := by
  cases s with
  | pairs i =>
    obtain ⟨h, rfl⟩ := hs
    rw [value, List.getElem?_eq_getElem h, Option.bind_some,
      get_of_mem hL (List.mem_append_left _ (List.getElem_mem h))]
  | hash i =>
    obtain ⟨h, rfl⟩ := hs
    rw [value, List.getElem?_eq_getElem h, Option.bind_some,
      get_of_mem hL (List.mem_append_right _ (List.getElem_mem h))]
  | free => rw [value, get_of_not_mem hs]

/-- Setting the value in the slot of a key keeps the keys. -/
theorem keys_setValue (L : MutableLeaf) (s : Slot) (v : Option KVLDSKey) :
    (L.setValue s v).keys = L.keys := by
  cases s <;> simp [setValue, keys]

/-- Setting the value in the used slot of a key sets the key's value. -/
theorem get_setValue {L : MutableLeaf} (hL : L.WF) {k : KVLDSKey} {s : Slot}
    (hs : L.SlotFor k s) (hused : s ≠ .free) (v : Option KVLDSKey) :
    (L.setValue s v).get = Function.update L.get k v := by
  have hnd : (L.pairs.map Prod.fst).Nodup ∧ (L.hash.map Prod.fst).Nodup ∧
      ∀ x ∈ L.pairs.map Prod.fst, x ∉ L.hash.map Prod.fst := by
    have := hL.nodup
    rw [keys, List.map_append, List.nodup_append] at this
    exact ⟨this.1, this.2.1, fun x hx hx' => this.2.2 x hx x hx' rfl⟩
  funext k'
  cases s with
  | pairs i =>
    obtain ⟨h, rfl⟩ := hs
    by_cases hk' : k' = L.pairs[i].1
    · subst hk'
      simp [setValue, get, List.lookup_append, lookup_modify_self hnd.1 h]
    · simp [setValue, get, List.lookup_append, lookup_modify_of_ne h v hk',
        Function.update_of_ne hk']
  | hash i =>
    obtain ⟨h, rfl⟩ := hs
    -- the key of a slot of the hash table is not in the array
    have hpairs : L.pairs.lookup L.hash[i].1 = none := lookup_eq_none_of_not_mem fun hx =>
      hnd.2.2 _ hx (List.mem_map_of_mem (List.getElem_mem h))
    by_cases hk' : k' = L.hash[i].1
    · subst hk'
      simp [setValue, get, List.lookup_append, hpairs, lookup_modify_self hnd.2.1 h]
    · simp [setValue, get, List.lookup_append, lookup_modify_of_ne h v hk',
        Function.update_of_ne hk']
  | free => exact absurd rfl hused

theorem setValue_wf {L : MutableLeaf} (hL : L.WF) (s : Slot) (v : Option KVLDSKey) :
    (L.setValue s v).WF := by
  have hkeys := keys_setValue L s v
  cases s with
  | pairs i =>
    refine ⟨?_, hkeys ▸ hL.nodup, hkeys ▸ hL.prefixN⟩
    have hsorted := hL.sorted
    rw [← List.pairwise_map (R := fun a b => a < b)] at hsorted ⊢
    simpa [setValue] using hsorted
  | hash i => exact ⟨hL.sorted, hkeys ▸ hL.nodup, hkeys ▸ hL.prefixN⟩
  | free => exact hL

/-- A key added to the hash table takes the value added. -/
theorem get_btreeMutateAdd {L : MutableLeaf} {k : KVLDSKey} (hk : k ∉ L.keys) (v : KVLDSKey) :
    (btreeMutateAdd L k v).get = Function.update L.get k (some v) := by
  funext k'
  have hsplit : (btreeMutateAdd L k v).pairs ++ (btreeMutateAdd L k v).hash =
      (L.pairs ++ L.hash) ++ [(k, some v)] := by simp [btreeMutateAdd]
  simp only [get, hsplit]
  rw [List.lookup_append]
  by_cases hk' : k' = k
  · subst hk'
    rw [lookup_eq_none_of_not_mem hk, Function.update_self]
    simp
  · have hne : (k' == k) = false := by simpa using hk'
    rw [Function.update_of_ne hk']
    simp only [List.lookup_cons, hne, List.lookup_nil, Option.or_none]
    rfl

theorem keys_btreeMutateAdd (L : MutableLeaf) (k v : KVLDSKey) :
    (btreeMutateAdd L k v).keys = L.keys ++ [k] := by
  simp [btreeMutateAdd, keys]

/-- Two keys that share `m` bytes with a third share them with each other. -/
theorem sharePrefix_of_common {m : ℕ} {x y z : KVLDSKey} (hx : SharePrefix m x z)
    (hy : SharePrefix m y z) : SharePrefix m x y :=
  hx.trans hy.symm

/-- Adding a new key keeps the invariant: `mlen_n` is lowered to how far the key matches the
first key of the array, which every key matches up to the old `mlen_n`. -/
theorem btreeMutateAdd_wf {L : MutableLeaf} (hL : L.WF) {k : KVLDSKey} (hk : k ∉ L.keys)
    (v : KVLDSKey) : (btreeMutateAdd L k v).WF := by
  have hkeys := keys_btreeMutateAdd L k v
  refine ⟨hL.sorted, ?_, ?_⟩
  · rw [hkeys, List.nodup_append]
    exact ⟨hL.nodup, List.nodup_singleton k, fun x hx y hy hxy => hk (by simp_all)⟩
  rw [hkeys]
  rcases hpairs : L.pairs with _ | ⟨p, ps⟩
  · -- an empty array: `mlen_n` becomes zero
    intro x _ y _
    simpa [btreeMutateAdd, hpairs] using sharePrefix_zero x y
  · -- every key, old or new, matches the first key of the array up to the new `mlen_n`
    set m' := if kvldskeyMlen k p.1 < L.info.mlenN then kvldskeyMlen k p.1 else L.info.mlenN
    have hinfo : (btreeMutateAdd L k v).info.mlenN = m' := by simp [btreeMutateAdd, hpairs, m']
    have hp : p.1 ∈ L.keys := mem_keys_pairs (by simp [hpairs])
    have hfirst : ∀ x ∈ L.keys ++ [k], SharePrefix m' x p.1 := by
      intro x hx
      rcases List.mem_append.mp hx with hx | hx
      · exact (hL.prefixN x hx p.1 hp).mono (by simp only [m']; split_ifs <;> omega)
      · rw [List.mem_singleton.mp hx]
        exact (sharePrefix_mlen k p.1).mono (by simp only [m']; split_ifs <;> omega)
    rw [hinfo]
    exact fun x hx y hy => sharePrefix_of_common (hfirst x hx) (hfirst y hy)

/-- `btree_mutate_find` on a leaf whose array keys share `mlen_t` with the key returns the slot
of the key. -/
theorem btreeMutateFind_spec {L : MutableLeaf} (hL : L.WF) {k : KVLDSKey}
    (hk : ∀ p ∈ L.pairs, SharePrefix L.info.mlenT k p.1) : L.SlotFor k (btreeMutateFind L k) := by
  have hsearch := bsearch_pairs hL.sorted hk (empty, none)
  unfold btreeMutateFind
  cases hb : bsearch (fun p => kvldskeyCmp2 k p.1 L.info.mlenT) L.pairs (empty, none) with
  | hit i =>
    rw [hb] at hsearch
    exact hsearch
  | miss lo =>
    rw [hb] at hsearch
    dsimp only
    split
    · next i hi =>
      obtain ⟨h, hki, -⟩ := List.findIdx?_eq_some_iff_getElem.mp hi
      rw [beq_iff_eq, cmp_eq_zero_iff] at hki
      exact ⟨h, hki.symm⟩
    · next hnone =>
      rw [List.findIdx?_eq_none_iff] at hnone
      simp only [SlotFor, keys, List.map_append, List.mem_append, not_or]
      refine ⟨hsearch, fun hx => ?_⟩
      obtain ⟨q, hq, rfl⟩ := List.mem_map.mp hx
      simpa [cmp_eq_zero_iff] using hnone q hq

end MutableLeaf

/-! ## One request -/

open MutableLeaf

/-- What performing the request `R` on the mutable leaf `L` must give: a leaf `L'` that keeps
the invariant, stands for the map `R` makes of `L`'s, and keeps the fields but `mlen_n` and the
keys of the array, adding at most the key of `R`; and `opdone` set when an operation was
chosen. -/
structure Performs (R : MRequest) (L L' : MutableLeaf) (opdone : Bool) : Prop where
  wf : L'.WF
  get : L'.get = R.apply L.get
  opdone : opdone = decide (batchRunOp R (L.get R.key) ≠ .none)
  info : L'.info = { L.info with mlenN := L'.info.mlenN }
  pairs : L'.pairs.map Prod.fst = L.pairs.map Prod.fst
  keys : ∀ x ∈ L'.keys, x ∈ L.keys ∨ x = R.key

/-- Setting the value in the used slot of the request's key performs an operation that sets
the key to that value. -/
theorem performs_setValue {R : MRequest} {L : MutableLeaf} (hL : L.WF) {s : Slot}
    (hs : L.SlotFor R.key s) (hused : s ≠ .free) {v : Option KVLDSKey}
    (happ : R.apply L.get = Function.update L.get R.key v) (hop : batchRunOp R (L.get R.key) ≠ .none) :
    Performs R L (L.setValue s v) true where
  wf := setValue_wf hL s v
  get := by rw [get_setValue hL hs hused, happ]
  opdone := by simp [hop]
  info := by cases s <;> rfl
  pairs := by cases s <;> simp [setValue]
  keys := fun x hx => Or.inl (keys_setValue L s v ▸ hx)

/-- `batch_run` performs a request on the mutable copy of its leaf. -/
theorem batchRunReq_performs {R : MRequest} {L : MutableLeaf} (hL : L.WF)
    (hk : ∀ p ∈ L.pairs, SharePrefix L.info.mlenT R.key p.1) :
    Performs R L (batchRunReq R L).1 (batchRunReq R L).2 := by
  have hslot := btreeMutateFind_spec hL hk
  have happ := apply_eq_batchRunOp R L.get
  unfold batchRunReq
  dsimp only
  rw [value_eq_get hL hslot]
  generalize btreeMutateFind L R.key = s at hslot ⊢
  -- MODIFY and DELETE find the key with a value, so in a used slot
  have hused : ∀ op, batchRunOp R (L.get R.key) = op → op = .modify ∨ op = .delete →
      s ≠ .free := by
    rintro op hop hmd rfl
    rw [get_of_not_mem hslot] at hop
    rcases hmd with rfl | rfl
    · exact batchRunOp_none_ne_modify R hop
    · exact batchRunOp_none_ne_delete R hop
  cases hop : batchRunOp R (L.get R.key) with
  | none =>
    rw [hop] at happ
    exact ⟨hL, happ.symm, by simp [hop], rfl, rfl, fun x hx => Or.inl hx⟩
  | add =>
    rw [hop] at happ
    cases s with
    | free =>
      -- a new key goes into the hash table
      exact ⟨btreeMutateAdd_wf hL hslot R.value, by rw [get_btreeMutateAdd hslot, happ],
        by simp [hop], rfl, rfl, fun x hx => by simpa [keys_btreeMutateAdd] using hx⟩
    | pairs i => exact performs_setValue hL hslot (by simp) happ (by simp [hop])
    | hash i => exact performs_setValue hL hslot (by simp) happ (by simp [hop])
  | modify =>
    rw [hop] at happ
    exact performs_setValue hL hslot (hused _ hop (Or.inl rfl)) happ (by simp [hop])
  | delete =>
    rw [hop] at happ
    exact performs_setValue hL hslot (hused _ hop (Or.inr rfl)) happ (by simp [hop])

/-! ## Making a leaf mutable and immutable again -/

theorem lookup_map_some (l : List (KVLDSKey × KVLDSKey)) (k : KVLDSKey) :
    (l.map fun p => (p.1, some p.2)).lookup k = (l.lookup k).map some := by
  induction l with
  | nil => rfl
  | cons p l ih =>
    obtain ⟨a, b⟩ := p
    simp only [List.map_cons, List.lookup_cons]
    split <;> simp [ih]

/-- The mutable copy of a sorted leaf whose keys share its `mlen_n` keeps the invariant. -/
theorem btreeMutateMutable_wf {N : Node} (hs : N.leafPairs.Pairwise fun p q => p.1 < q.1)
    (hpre : ∀ p ∈ N.leafPairs, ∀ q ∈ N.leafPairs, SharePrefix N.info.mlenN p.1 q.1) :
    (btreeMutateMutable N).WF := by
  have hkeys : (btreeMutateMutable N).keys = N.leafPairs.map Prod.fst := by
    simp [btreeMutateMutable, keys, Function.comp_def]
  refine ⟨?_, hkeys ▸ nodup_map_fst_of_sorted hs, ?_⟩
  · simpa [btreeMutateMutable, List.pairwise_map] using hs
  · rw [hkeys]
    intro x hx y hy
    obtain ⟨p, hp, rfl⟩ := List.mem_map.mp hx
    obtain ⟨q, hq, rfl⟩ := List.mem_map.mp hy
    exact hpre p hp q hq

/-- The merge loop of `btree_mutate_immutable`, on a sorted array and sorted new pairs with
other keys, all sharing their first `mlen` bytes: sorted pairs, namely the pairs of the array
that have values and the new pairs. -/
theorem immutableMerge_spec {mlen : ℕ} :
    ∀ (ps : List (KVLDSKey × Option KVLDSKey)) (hs : List (KVLDSKey × KVLDSKey)),
      ps.Pairwise (fun p q => p.1 < q.1) → hs.Pairwise (fun p q => p.1 < q.1) →
      (∀ p ∈ ps, ∀ h ∈ hs, p.1 ≠ h.1) → (∀ p ∈ ps, ∀ h ∈ hs, SharePrefix mlen p.1 h.1) →
      (immutableMerge mlen ps hs).Pairwise (fun p q => p.1 < q.1) ∧
        ∀ q, q ∈ immutableMerge mlen ps hs ↔ (q.1, some q.2) ∈ ps ∨ q ∈ hs
  | [], hs, _, hhs, _, _ => ⟨hhs, fun q => by simp [immutableMerge]⟩
  | (k, none) :: ps, hs, hps, hhs, hdisj, hpre => by
    -- a deleted pair is dropped
    have ih := immutableMerge_spec ps hs (List.pairwise_cons.mp hps).2 hhs
      (fun p hp => hdisj p (List.mem_cons_of_mem _ hp))
      (fun p hp => hpre p (List.mem_cons_of_mem _ hp))
    refine ⟨ih.1, fun q => ?_⟩
    rw [immutableMerge, ih.2 q]
    simp
  | (k, some v) :: ps, hs, hps, hhs, hdisj, hpre => by
    rw [List.pairwise_cons] at hps
    set T := hs.takeWhile fun h => decide (0 < kvldskeyCmp2 k h.1 mlen)
    set D := hs.dropWhile fun h => decide (0 < kvldskeyCmp2 k h.1 mlen)
    -- the loop moves the new pairs below `k` in front of it, by the plain order of keys
    have hpred : ∀ h ∈ hs, decide (0 < kvldskeyCmp2 k h.1 mlen) = true ↔ h.1 < k := fun h hh => by
      rw [decide_eq_true_iff, cmp2_eq_cmp (hpre _ List.mem_cons_self h hh), cmp_pos_iff]
    have hT : ∀ t ∈ T, t.1 < k := fun t ht => lt_of_mem_takeWhile hpred ht
    have hDsub : ∀ d ∈ D, d ∈ hs := fun d hd => (List.dropWhile_sublist _).subset hd
    have hD : ∀ d ∈ D, k < d.1 := fun d hd =>
      lt_of_le_of_ne (le_of_mem_dropWhile hhs hpred hd) (hdisj _ List.mem_cons_self d (hDsub d hd))
    have ih := immutableMerge_spec ps D hps.2 (hhs.sublist (List.dropWhile_sublist _))
      (fun p hp d hd => hdisj p (List.mem_cons_of_mem _ hp) d (hDsub d hd))
      (fun p hp d hd => hpre p (List.mem_cons_of_mem _ hp) d (hDsub d hd))
    have hrest : ∀ q ∈ immutableMerge mlen ps D, k < q.1 := fun q hq => by
      rcases (ih.2 q).mp hq with hq | hq
      · exact hps.1 _ hq
      · exact hD q hq
    rw [immutableMerge]
    refine ⟨List.pairwise_append.mpr ⟨hhs.sublist (List.takeWhile_sublist _),
      List.pairwise_cons.mpr ⟨hrest, ih.1⟩, fun t ht u hu => ?_⟩, fun q => ?_⟩
    · rcases List.mem_cons.mp hu with rfl | hu
      · exact hT t ht
      · exact (hT t ht).trans (hrest u hu)
    · have hsplit : q ∈ hs ↔ q ∈ T ∨ q ∈ D := by
        rw [← List.mem_append, List.takeWhile_append_dropWhile]
      rw [List.mem_append, List.mem_cons, ih.2 q, hsplit, List.mem_cons]
      obtain ⟨a, b⟩ := q
      simp only [Prod.mk.injEq, Option.some.injEq]
      tauto

/-- `btree_mutate_immutable` on a leaf with the invariant: sorted pairs with the lookups of the
leaf's map, on keys of the leaf. -/
theorem btreeMutateImmutable_spec {L : MutableLeaf} (hL : L.WF) :
    (btreeMutateImmutable L).Pairwise (fun p q => p.1 < q.1) ∧
      (∀ k, (btreeMutateImmutable L).lookup k = L.get k) ∧
      ∀ p ∈ btreeMutateImmutable L, p.1 ∈ L.keys := by
  set hashed := L.hash.filterMap fun p => p.2.map fun v => (p.1, v)
  have hnd := hL.nodup
  rw [keys, List.map_append, List.nodup_append] at hnd
  have hmem_hashed : ∀ q, q ∈ hashed ↔ (q.1, some q.2) ∈ L.hash := fun q => by
    simp only [hashed, List.mem_filterMap, Option.map_eq_some_iff]
    constructor
    · rintro ⟨a, ha, v, hv, rfl⟩
      simpa [← hv] using ha
    · exact fun hq => ⟨_, hq, q.2, rfl, rfl⟩
  have hkey : ∀ q ∈ hashed, q.1 ∈ L.keys := fun q hq => by
    simp only [keys, List.map_append, List.mem_append]
    exact Or.inr (List.mem_map_of_mem (f := Prod.fst) ((hmem_hashed q).mp hq))
  -- on the keys of the leaf the comparison of `kvpair_sort` is the order of keys
  have hcmp : ∀ x ∈ hashed, ∀ y ∈ hashed,
      kvldskeyCmp2 x.1 y.1 L.info.mlenN ≤ 0 ↔ x.1 ≤ y.1 := fun x hx y hy => by
    rw [cmp2_eq_cmp (hL.prefixN _ (hkey x hx) _ (hkey y hy)), ← not_lt, cmp_pos_iff, not_lt]
  have hsort : hashed.insertionSort (fun x y => kvldskeyCmp2 x.1 y.1 L.info.mlenN ≤ 0) =
      hashed.insertionSort (fun x y => x.1 ≤ y.1) := insertionSort_congr hcmp
  have hperm := List.perm_insertionSort (fun x y : KVLDSKey × KVLDSKey => x.1 ≤ y.1) hashed
  have hne : hashed.Pairwise fun p q => p.1 ≠ q.1 := by
    refine List.pairwise_filterMap.mpr ?_
    refine (List.pairwise_map.mp hnd.2.1).imp fun hab b hb b' hb' => ?_
    simp only [Option.map_eq_some_iff] at hb hb'
    obtain ⟨_, -, rfl⟩ := hb
    obtain ⟨_, -, rfl⟩ := hb'
    exact hab
  have hsorted : (hashed.insertionSort fun x y => x.1 ≤ y.1).Pairwise fun p q => p.1 < q.1 := by
    have : Std.Total fun x y : KVLDSKey × KVLDSKey => x.1 ≤ y.1 := ⟨fun x y => le_total _ _⟩
    have : IsTrans (KVLDSKey × KVLDSKey) fun x y => x.1 ≤ y.1 := ⟨fun _ _ _ => le_trans⟩
    refine ((List.pairwise_insertionSort _ hashed).and
      ((hperm.pairwise_iff fun h => Ne.symm h).mpr hne)).imp fun h => lt_of_le_of_ne h.1 h.2
  have hmerge := @immutableMerge_spec L.info.mlenN L.pairs _ hL.sorted hsorted
    (fun p hp h hh => hnd.2.2 _ (List.mem_map_of_mem hp) _
      (List.mem_map_of_mem ((hmem_hashed h).mp (hperm.mem_iff.mp hh))))
    (fun p hp h hh => hL.prefixN _ (mem_keys_pairs (List.mem_map_of_mem hp)) _
      (hkey h (hperm.mem_iff.mp hh)))
  have hmem : ∀ q, q ∈ btreeMutateImmutable L ↔ (q.1, some q.2) ∈ L.pairs ++ L.hash := fun q => by
    rw [btreeMutateImmutable, hsort, hmerge.2 q, hperm.mem_iff, hmem_hashed, List.mem_append]
  have hres : (btreeMutateImmutable L).Pairwise fun p q => p.1 < q.1 := by
    rw [btreeMutateImmutable, hsort]
    exact hmerge.1
  refine ⟨hres, fun k => ?_, fun p hp => ?_⟩
  · refine Option.ext fun v => ?_
    rw [lookup_eq_some_iff_mem (nodup_map_fst_of_sorted hres), hmem, MutableLeaf.get,
      Option.join_eq_some_iff, lookup_eq_some_iff_mem hL.nodup]
  · exact List.mem_map_of_mem (f := Prod.fst) ((hmem p).mp hp)

end Kivaloo.Kvlds
