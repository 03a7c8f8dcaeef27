import Mathlib
import Kivaloo.Kvlds.Key
import Kivaloo.Lib.Probing
import Kivaloo.Lib.Transition

/-!
# The hash table of a mutable leaf (lib/datastruct/kvhash.c)

While a batch modifies a leaf, its new keys go into a `kvhash`: an open-addressing table of
`nslots` slots with linear probing, each slot holding a key and a value (`struct kvpair_const`,
the key NULL for an empty slot) and beside it, in a second array, the hash of its key.  The hash
is the CRC32C of the key, a parameter `hash` here.  `kvhash_search` probes from slot
`hash(k) & (nslots - 1)` for an empty slot or the key, and writes the hash into the slot it
returns even on a miss; `btree_mutate_add` stores a new pair in the empty slot it returned and
calls `kvhash_postadd`, which counts the pair and doubles the table (`rehash`) once it is more
than three quarters full; the batch writes a new value into a used slot.  The probe loops are
unbounded in the C code; here they look at one turn of the ring of slots, after which the C code
would only go round again, so `none` stands for a loop that does not end.

In every state these operations reach (`KvhashStep`), the table keeps the invariant `Kvhash.Inv`:
`nslots` is a power of two and at least 4, `nkeys` counts the used slots and leaves a quarter of
the slots free, the used slots satisfy the linear-probing invariant (`Lib.Probing`) with their
stored hashes right, and no key is stored twice (`reachable_inv`).  Under it `kvhash_search`
returns, for every key, the slot holding it if the key is in the table and an empty slot
otherwise (`kvhashSearch_spec`); `rehash` moves every pair of a table whose size is a power of
two into the new table (`rehash_perm`).
-/

namespace Kivaloo.Datastruct

open Kivaloo.Lib Kivaloo.Kvlds

/-- `struct kvhash`: the slots `pairs`, an empty slot (`k == NULL`) being `none` and a used one
holding its key and its value (`none` for `v == NULL`, a deleted value), the array `hashes`, and
`nkeys`.  `nslots` is the number of slots. -/
structure Kvhash where
  pairs : List (Option (KVLDSKey × Option KVLDSKey))
  hashes : List UInt32
  nkeys : ℕ

namespace Kvhash

/-- `H->nslots`. -/
def nslots (H : Kvhash) : ℕ := H.pairs.length

/-- The keys in the table. -/
def keys (H : Kvhash) : List KVLDSKey := (H.pairs.map (Option.map Prod.fst)).reduceOption

/-- The table with slot `pos` set to `a` (`pos->k = k; pos->v = v`). -/
def setSlot (H : Kvhash) (pos : ℕ) (a : Option (KVLDSKey × Option KVLDSKey)) : Kvhash :=
  { H with pairs := H.pairs.set pos a }

end Kvhash

section Operations

variable (hash : KVLDSKey → UInt32)

/-- `kvhash_init()`: four empty slots.  The C code leaves `hashes` uninitialized; nothing reads
the hash of an empty slot. -/
def kvhashInit : Kvhash := ⟨List.replicate 4 none, List.replicate 4 0, 0⟩

/-- The test of the loop of `kvhash_search` at slot `pos`: the slot is empty, or its hash is `h`
and its key is `k`. -/
def searchStop (H : Kvhash) (k : KVLDSKey) (h : UInt32) (pos : ℕ) : Bool :=
  match slotAt H.pairs pos with
  | none => true
  | some (k', _) => H.hashes.getD pos 0 == h && kvldskeyCmp k k' == 0

/-- `kvhash_search(H, k)`: probe from `hash(k) & (nslots - 1)` for an empty slot or the key,
write the hash into the slot found, and return it. -/
def kvhashSearch (H : Kvhash) (k : KVLDSKey) : Option (Kvhash × ℕ) :=
  let h := hash k
  (probeLoop (fun pos => (pos + 1) &&& (H.nslots - 1)) (searchStop H k h) H.nslots
    (h.toNat &&& (H.nslots - 1))).map fun pos => ({ H with hashes := H.hashes.set pos h }, pos)

/-- The loop of `rehash` over the old slots `is`, moving each used one, with its stored hash,
into the first empty slot of the new arrays from `hash & (new_nslots - 1)`. -/
def rehashLoop (H : Kvhash) (newNslots : ℕ) :
    List ℕ → List (Option (KVLDSKey × Option KVLDSKey)) × List UInt32 →
      Option (List (Option (KVLDSKey × Option KVLDSKey)) × List UInt32)
  | [], acc => some acc
  | i :: is, acc =>
    match slotAt H.pairs i with
    -- "Skip empty slots."
    | none => rehashLoop H newNslots is acc
    | some x =>
      let h := H.hashes.getD i 0
      (probeLoop (fun pos => (pos + 1) &&& (newNslots - 1)) (fun pos => (slotAt acc.1 pos).isNone)
        newNslots (h.toNat &&& (newNslots - 1))).bind fun pos =>
          rehashLoop H newNslots is (acc.1.set pos (some x), acc.2.set pos h)

/-- `rehash(H)`: the table moved into twice as many slots. -/
def rehash (H : Kvhash) : Option Kvhash :=
  let newNslots := H.nslots * 2
  (rehashLoop H newNslots (List.range H.nslots)
    (List.replicate newNslots none, List.replicate newNslots 0)).map
      fun t => { H with pairs := t.1, hashes := t.2 }

/-- `kvhash_postadd(H)`: count the pair added, and rehash if the table is more than 3/4
full. -/
def kvhashPostadd (H : Kvhash) : Option Kvhash :=
  let H := { H with nkeys := H.nkeys + 1 }
  if H.nkeys + H.nslots / 4 > H.nslots then rehash H else some H

/-- The operations on the hash table of a leaf as `btree_mutate` uses them: a search whose slot
is not written to (`OP_NONE`), a new pair stored into the empty slot the search returned
followed by `kvhash_postadd` (`btree_mutate_add`), or a new value written into the used slot the
search returned (`OP_MODIFY`, `OP_DELETE`, or `OP_ADD` on a deleted key). -/
inductive KvhashStep : Kvhash → Kvhash → Prop
  | search {H H' : Kvhash} {k : KVLDSKey} {pos : ℕ} :
      kvhashSearch hash H k = some (H', pos) → KvhashStep H H'
  | add {H H₁ H' : Kvhash} {k : KVLDSKey} {v : Option KVLDSKey} {pos : ℕ} :
      kvhashSearch hash H k = some (H₁, pos) → slotAt H₁.pairs pos = none →
        kvhashPostadd (H₁.setSlot pos (some (k, v))) = some H' → KvhashStep H H'
  | setValue {H H₁ : Kvhash} {k k' : KVLDSKey} {v v' : Option KVLDSKey} {pos : ℕ} :
      kvhashSearch hash H k = some (H₁, pos) → slotAt H₁.pairs pos = some (k', v) →
        KvhashStep H (H₁.setSlot pos (some (k', v')))

/-- Every used slot of `pairs` has the hash of its key at the same place in `hashes`. -/
def HashesOK (pairs : List (Option (KVLDSKey × Option KVLDSKey))) (hashes : List UInt32) : Prop :=
  ∀ (j : ℕ) (x : KVLDSKey × Option KVLDSKey), pairs[j]? = some (some x) →
    hashes[j]? = some (hash x.1)

/-- The linear-probing table: `nslots` a power of two and at least 4, a hash for every slot,
every used slot reached from its home slot through used slots and holding the hash of its key,
and no key twice. -/
structure Kvhash.Table (H : Kvhash) : Prop where
  pow : ∃ m, H.nslots = 2 ^ m
  four_le : 4 ≤ H.nslots
  hashes_length : H.hashes.length = H.nslots
  probing : Probing (fun x => (hash x.1).toNat) H.pairs
  hashes_eq : HashesOK hash H.pairs H.hashes
  nodup : H.keys.Nodup

/-- The invariant between operations: the table, `nkeys` the number of used slots, and at most
three quarters of the slots used. -/
structure Kvhash.Inv (H : Kvhash) : Prop extends H.Table hash where
  nkeys_eq : H.nkeys = H.pairs.countP (·.isSome)
  load : H.nkeys + H.nslots / 4 ≤ H.nslots

end Operations

section Lemmas

variable {hash : KVLDSKey → UInt32}

/-- With a power of two slots, the mask is the remainder. -/
theorem and_pred_eq_mod {n : ℕ} (hn : ∃ m, n = 2 ^ m) (x : ℕ) : x &&& (n - 1) = x % n := by
  obtain ⟨m, rfl⟩ := hn
  exact Nat.and_two_pow_sub_one_eq_mod x m

/-- With a power of two slots, the masked probe loop goes round the ring of slots. -/
theorem probeLoop_mask {n : ℕ} (hn : ∃ m, n = 2 ^ m) (stop : ℕ → Bool) (fuel x : ℕ) :
    probeLoop (fun pos => (pos + 1) &&& (n - 1)) stop fuel (x &&& (n - 1)) =
      probeLoop (fun pos => (pos + 1) % n) stop fuel (x % n) := by
  have hnext : (fun pos => (pos + 1) &&& (n - 1)) = fun pos => (pos + 1) % n :=
    funext fun pos => and_pred_eq_mod hn (pos + 1)
  rw [hnext, and_pred_eq_mod hn]

theorem mem_keys {H : Kvhash} {k : KVLDSKey} :
    k ∈ H.keys ↔ ∃ (j : ℕ) (v : Option KVLDSKey), H.pairs[j]? = some (some (k, v)) := by
  rw [Kvhash.keys, List.reduceOption_map, List.mem_map]
  constructor
  · rintro ⟨⟨k', v⟩, hmem, rfl⟩
    obtain ⟨j, hj⟩ := List.mem_iff_getElem?.mp (List.reduceOption_mem_iff.mp hmem)
    exact ⟨j, v, hj⟩
  · rintro ⟨j, v, hj⟩
    exact ⟨(k, v), List.reduceOption_mem_iff.mpr (List.mem_of_getElem? hj), rfl⟩

/-- The stop test at an empty slot. -/
theorem searchStop_of_none {H : Kvhash} {k : KVLDSKey} {h : UInt32} {pos : ℕ}
    (hs : slotAt H.pairs pos = none) : searchStop H k h pos = true := by
  simp [searchStop, hs]

/-- The stop test at a used slot whose stored hash is right: the key is `k`. -/
theorem searchStop_of_some {H : Kvhash} {k : KVLDSKey} {pos : ℕ} {x : KVLDSKey × Option KVLDSKey}
    (hs : slotAt H.pairs pos = some x) (hh : H.hashes[pos]? = some (hash x.1)) :
    searchStop H k (hash k) pos = true ↔ x.1 = k := by
  obtain ⟨k', v⟩ := x
  have hget : H.hashes.getD pos 0 = hash k' := by simp [List.getD_eq_getElem?_getD, hh]
  simp only [searchStop, hs, hget, Bool.and_eq_true, beq_iff_eq, cmp_eq_zero_iff]
  constructor
  · rintro ⟨-, rfl⟩
    rfl
  · rintro rfl
    exact ⟨rfl, rfl⟩

/-- What `kvhash_search` returns: the slot where the probe from the home slot of `k` first
stops, with the hash written into it. -/
theorem kvhashSearch_eq_some {H H' : Kvhash} {k : KVLDSKey} {pos : ℕ} (hpow : ∃ m, H.nslots = 2 ^ m)
    (h : kvhashSearch hash H k = some (H', pos)) :
    H' = { H with hashes := H.hashes.set pos (hash k) } ∧
      ∃ d < H.nslots, pos = ((hash k).toNat + d) % H.nslots ∧ searchStop H k (hash k) pos = true ∧
        ∀ d' < d, searchStop H k (hash k) (((hash k).toNat + d') % H.nslots) = false := by
  simp only [kvhashSearch, probeLoop_mask hpow, Option.map_eq_some_iff] at h
  obtain ⟨q, hq, hres⟩ := h
  obtain ⟨rfl, rfl⟩ := Prod.mk.inj hres.symm
  exact ⟨rfl, probeLoop_eq_some hq⟩


/-- An empty table has no hash to get right. -/
theorem hashesOK_replicate (n : ℕ) (hashes : List UInt32) :
    HashesOK hash (List.replicate n none) hashes := fun j x hj => by
  simp [List.getElem?_replicate] at hj

/-- Storing a pair with the hash of its key keeps the stored hashes right. -/
theorem HashesOK.set {pairs : List (Option (KVLDSKey × Option KVLDSKey))} {hashes : List UInt32}
    (hh : HashesOK hash pairs hashes) {pos : ℕ} (hpos : pos < hashes.length)
    (x : KVLDSKey × Option KVLDSKey) :
    HashesOK hash (pairs.set pos (some x)) (hashes.set pos (hash x.1)) := by
  intro j y hj
  rw [List.getElem?_set] at hj ⊢
  by_cases hposj : pos = j
  · subst hposj
    rw [if_pos rfl, if_pos hpos]
    rw [if_pos rfl] at hj
    split_ifs at hj with hlt
    obtain rfl : x = y := by simpa using hj
    rfl
  · rw [if_neg hposj] at hj ⊢
    exact hh j y hj

/-- Writing the hash of `k` into a slot that is empty or holds `k` keeps the stored hashes
right. -/
theorem HashesOK.setHash {pairs : List (Option (KVLDSKey × Option KVLDSKey))}
    {hashes : List UInt32} (hh : HashesOK hash pairs hashes) {pos : ℕ} (hpos : pos < hashes.length)
    {k : KVLDSKey} (hk : ∀ x, pairs[pos]? = some (some x) → x.1 = k) :
    HashesOK hash pairs (hashes.set pos (hash k)) := by
  intro j y hj
  rw [List.getElem?_set]
  by_cases hposj : pos = j
  · subst hposj
    rw [if_pos rfl, if_pos hpos, hk y hj]
  · rw [if_neg hposj]
    exact hh j y hj

/-- Replacing the pair of a slot by one with the same key keeps the stored hashes right. -/
theorem HashesOK.setPair {pairs : List (Option (KVLDSKey × Option KVLDSKey))}
    {hashes : List UInt32} (hh : HashesOK hash pairs hashes) {pos : ℕ}
    {x : KVLDSKey × Option KVLDSKey} (hx : hashes[pos]? = some (hash x.1)) :
    HashesOK hash (pairs.set pos (some x)) hashes := by
  intro j y hj
  rw [List.getElem?_set] at hj
  by_cases hposj : pos = j
  · subst hposj
    rw [if_pos rfl] at hj
    split_ifs at hj with hlt
    obtain rfl : x = y := by simpa using hj
    exact hx
  · rw [if_neg hposj] at hj
    exact hh j y hj

/-- The keys after a pair is stored in an empty slot. -/
theorem keys_set_of_none {H : Kvhash} {pos : ℕ} (hpos : H.pairs[pos]? = some none)
    (x : KVLDSKey × Option KVLDSKey) : (H.setSlot pos (some x)).keys.Perm (x.1 :: H.keys) := by
  simp only [Kvhash.keys, Kvhash.setSlot, List.map_set, Option.map_some]
  exact reduceOption_set_of_none (by simp [hpos]) x.1

/-- The keys after the value of a used slot is replaced. -/
theorem keys_set_of_some {H : Kvhash} {pos : ℕ} {k : KVLDSKey} {v v' : Option KVLDSKey}
    (hpos : H.pairs[pos]? = some (some (k, v))) : (H.setSlot pos (some (k, v'))).keys = H.keys := by
  simp only [Kvhash.keys, Kvhash.setSlot, List.map_set, Option.map_some]
  rw [set_of_getElem?_eq (by simp [hpos])]

namespace Kvhash.Table

variable {H : Kvhash}

/-- Under the table invariant, the search stops at a used slot exactly when it holds `k`. -/
theorem searchStop_iff (hT : H.Table hash) {k : KVLDSKey} {i : ℕ}
    {x : KVLDSKey × Option KVLDSKey} (hs : slotAt H.pairs i = some x) :
    searchStop H k (hash k) i = true ↔ x.1 = k :=
  searchStop_of_some hs (hT.hashes_eq i x (getElem?_of_slotAt hs))

/-- A slot where the search stops is empty or holds `k`. -/
theorem slot_of_searchStop (hT : H.Table hash) {k : KVLDSKey} {i : ℕ}
    (hstop : searchStop H k (hash k) i = true) :
    slotAt H.pairs i = none ∨ ∃ v, slotAt H.pairs i = some (k, v) := by
  cases hs : slotAt H.pairs i with
  | none => exact .inl rfl
  | some x =>
    obtain ⟨k', v⟩ := x
    obtain rfl : k' = k := (hT.searchStop_iff hs).mp hstop
    exact .inr ⟨v, rfl⟩

/-- A key is in one slot only. -/
theorem eq_of_key (hT : H.Table hash) {i j : ℕ} {k : KVLDSKey} {v v' : Option KVLDSKey}
    (hi : H.pairs[i]? = some (some (k, v))) (hj : H.pairs[j]? = some (some (k, v'))) : i = j :=
  eq_of_reduceOption_nodup (x := k) hT.nodup (by simp [hi]) (by simp [hj])

/-- Under the invariant, `kvhash_search` ends if the table has an empty slot, and returns the
slot of `k` if `k` is in the table and an empty slot if it is not. -/
theorem kvhashSearch_spec (hT : H.Table hash) (hfree : ∃ q : ℕ, H.pairs[q]? = some none)
    (k : KVLDSKey) :
    ∃ pos, kvhashSearch hash H k = some ({ H with hashes := H.hashes.set pos (hash k) }, pos) ∧
      (k ∈ H.keys → ∃ v, slotAt H.pairs pos = some (k, v)) ∧
      (k ∉ H.keys → slotAt H.pairs pos = none) := by
  set stop := searchStop H k (hash k)
  -- the probe ends: within one turn of the ring it meets the free slot
  obtain ⟨q, hq⟩ := hfree
  have hqlen : q < H.nslots := (List.getElem?_eq_some_iff.mp hq).1
  obtain ⟨e, he, heq⟩ := exists_ring_eq (hash k).toNat hqlen
  have hstopq : stop (((hash k).toNat + e) % H.nslots) = true := by
    rw [heq]
    exact searchStop_of_none (slotAt_of_getElem? hq)
  obtain ⟨pos, hpos⟩ := Option.isSome_iff_exists.mp
    (@probeLoop_isSome H.nslots stop H.nslots (hash k).toNat e he hstopq)
  have hsearch : kvhashSearch hash H k =
      some ({ H with hashes := H.hashes.set pos (hash k) }, pos) := by
    simp only [kvhashSearch, probeLoop_mask hT.pow]
    rw [hpos]
    rfl
  obtain ⟨d, hd, rfl, hstop, hbefore⟩ := probeLoop_eq_some hpos
  refine ⟨_, hsearch, fun hk => ?_, fun hk => ?_⟩
  · -- the slot of `k` is the first one where the probe stops, so it is the one returned
    obtain ⟨j, v, hj⟩ := mem_keys.mp hk
    have hstopj : ∀ i, (slotAt H.pairs i).isSome → (stop i = true ↔ i = j) := by
      intro i hi
      obtain ⟨x, hx⟩ := Option.isSome_iff_exists.mp hi
      rw [hT.searchStop_iff hx]
      constructor
      · intro hxk
        obtain ⟨k', v'⟩ := x
        simp only at hxk
        subst hxk
        exact hT.eq_of_key (getElem?_of_slotAt hx) hj
      · rintro rfl
        simp [slotAt_of_getElem? hj] at hx
        rw [← hx]
    obtain ⟨d₁, hd₁, hj₁, hstop₁, hbefore₁⟩ := hT.probing.firstStop hj hstopj
    -- the home slot of the pair is the home slot of `k`
    have hj₁' : ((hash k).toNat + d₁) % H.nslots = j := hj₁
    have hbefore₁' : ∀ d' < d₁, stop (((hash k).toNat + d') % H.nslots) = false := hbefore₁
    have hfirst := @probeLoop_eq_of_first H.nslots stop H.nslots (hash k).toNat d₁ hd₁
      (by rw [hj₁']; exact hstop₁) hbefore₁'
    rw [hpos, hj₁', Option.some.injEq] at hfirst
    rw [hfirst]
    exact ⟨v, slotAt_of_getElem? hj⟩
  · rcases hT.slot_of_searchStop hstop with hnone | ⟨v, hv⟩
    · exact hnone
    · exact absurd (mem_keys.mpr ⟨_, v, getElem?_of_slotAt hv⟩) hk


/-- A search keeps the table: the hash goes into an empty slot or into the slot of `k`, where it
is already. -/
theorem search_table (hT : H.Table hash) {k : KVLDSKey} {H' : Kvhash} {pos : ℕ}
    (h : kvhashSearch hash H k = some (H', pos)) :
    H'.Table hash ∧ H'.pairs = H.pairs ∧ H'.nkeys = H.nkeys := by
  obtain ⟨rfl, d, hd, rfl, hstop, -⟩ := kvhashSearch_eq_some hT.pow h
  refine ⟨⟨hT.pow, hT.four_le, by simp [Kvhash.nslots, hT.hashes_length], hT.probing,
    hT.hashes_eq.setHash (by rw [hT.hashes_length]; exact Nat.mod_lt _ (by have := hT.four_le; omega))
      fun x hx => ?_, hT.nodup⟩, rfl, rfl⟩
  rcases hT.slot_of_searchStop hstop with hnone | ⟨v, hv⟩
  · simp [slotAt_of_getElem? hx] at hnone
  · rw [slotAt_of_getElem? hx] at hv
    rw [Option.some.inj hv]

/-- A new pair stored into the empty slot a search returned keeps the table and takes one more
slot: the probe reached the slot through used slots, and the key was not in the table. -/
theorem add_table (hT : H.Table hash) (hfree : ∃ q : ℕ, H.pairs[q]? = some none)
    {k : KVLDSKey} {H₁ : Kvhash} {pos : ℕ} (h : kvhashSearch hash H k = some (H₁, pos))
    (hempty : slotAt H₁.pairs pos = none) (v : Option KVLDSKey) :
    (H₁.setSlot pos (some (k, v))).Table hash ∧
      (H₁.setSlot pos (some (k, v))).pairs.countP (·.isSome) = H.pairs.countP (·.isSome) + 1 ∧
      (H₁.setSlot pos (some (k, v))).nslots = H.nslots ∧ (H₁.setSlot pos (some (k, v))).nkeys = H.nkeys := by
  obtain ⟨pos₀, hsearch, hfound, -⟩ := hT.kvhashSearch_spec hfree k
  obtain ⟨rfl, d, hd, rfl, -, hbefore⟩ := kvhashSearch_eq_some hT.pow h
  have hn : 0 < H.nslots := by have := hT.four_le; omega
  have hposlt : ((hash k).toNat + d) % H.nslots < H.nslots := Nat.mod_lt _ hn
  -- `k` is not in the table: its slot would have been returned
  have hnotin : k ∉ H.keys := fun hk => by
    rw [hsearch, Option.some.injEq, Prod.mk.injEq] at h
    obtain ⟨v', hv'⟩ := hfound hk
    dsimp only at hempty
    rw [h.2, hempty] at hv'
    exact absurd hv' (by simp)
  have hnone : H.pairs[((hash k).toNat + d) % H.nslots]? = some none :=
    getElem?_of_slotAt_none hempty hposlt
  -- the slots before it on the probe are used: an empty one would have stopped the search
  have hocc : ∀ d' < d, (slotAt H.pairs (((hash k).toNat + d') % H.nslots)).isSome := by
    intro d' hd'
    have hs := hbefore d' hd'
    cases hslot : slotAt H.pairs (((hash k).toNat + d') % H.nslots) with
    | none => simp [searchStop_of_none hslot] at hs
    | some x => rfl
  refine ⟨⟨?_, ?_, ?_, ?_, ?_, ?_⟩, countP_isSome_set_of_none hnone _, List.length_set .., rfl⟩
  · simpa [Kvhash.setSlot, Kvhash.nslots] using hT.pow
  · simpa [Kvhash.setSlot, Kvhash.nslots] using hT.four_le
  · simp [Kvhash.setSlot, Kvhash.nslots, hT.hashes_length]
  · exact hT.probing.set (x := (k, v)) hd hocc
  · exact hT.hashes_eq.set (by rw [hT.hashes_length]; exact hposlt) (k, v)
  · exact (keys_set_of_none hnone (k, v)).nodup_iff.mpr (List.nodup_cons.mpr ⟨hnotin, hT.nodup⟩)

/-- A new value written into the used slot a search returned keeps the table and the number of
used slots: the slot holds `k`, whose hash is already stored there. -/
theorem setValue_table (hT : H.Table hash) {k k' : KVLDSKey} {H₁ : Kvhash} {pos : ℕ}
    {v : Option KVLDSKey} (h : kvhashSearch hash H k = some (H₁, pos))
    (hs : slotAt H₁.pairs pos = some (k', v)) (v' : Option KVLDSKey) :
    (H₁.setSlot pos (some (k', v'))).Table hash ∧
      (H₁.setSlot pos (some (k', v'))).pairs.countP (·.isSome) = H.pairs.countP (·.isSome) ∧
      (H₁.setSlot pos (some (k', v'))).nslots = H.nslots ∧
      (H₁.setSlot pos (some (k', v'))).nkeys = H.nkeys := by
  obtain ⟨hT₁, hpairs, hnkeys⟩ := hT.search_table h
  have hslot := getElem?_of_slotAt hs
  -- the run of the pair ends at `pos`; the new pair has the same key, so the same run
  obtain ⟨d, hd, hdpos, hocc⟩ := hT₁.probing pos (k', v) hslot
  have hprobing := hT₁.probing.set (x := (k', v')) hd hocc
  dsimp only at hdpos hprobing
  rw [hdpos] at hprobing
  have hlen : (H₁.setSlot pos (some (k', v'))).nslots = H₁.nslots := List.length_set ..
  refine ⟨⟨hlen ▸ hT₁.pow, hlen ▸ hT₁.four_le, by rw [hlen]; exact hT₁.hashes_length, hprobing,
    hT₁.hashes_eq.setPair (hT₁.hashes_eq pos (k', v) hslot), ?_⟩, ?_, ?_, hnkeys⟩
  · rw [keys_set_of_some hslot]
    exact hT₁.nodup
  · rw [← hpairs]
    exact countP_isSome_set_of_some hslot _
  · rw [hlen]
    simp [Kvhash.nslots, hpairs]

end Kvhash.Table

/-! ## Rehashing -/

/-- The loop of `rehash` moves the used slots it visits into the new arrays, each into the first
empty slot from its stored hash, as long as the new slots are enough for them; with the stored
hashes right, the new arrays keep the linear-probing invariant.  (One turn of the loop per used
slot: the induction is on the slots left to visit.) -/
theorem rehashLoop_spec (H : Kvhash) {n' : ℕ} (hpow : ∃ m, n' = 2 ^ m) :
    ∀ (is : List ℕ) (acc : List (Option (KVLDSKey × Option KVLDSKey)) × List UInt32),
      acc.1.length = n' → acc.2.length = n' →
      acc.1.countP (·.isSome) + (is.filterMap (slotAt H.pairs)).length ≤ n' →
      ∃ r, rehashLoop H n' is acc = some r ∧ r.1.length = n' ∧ r.2.length = n' ∧
        r.1.reduceOption.Perm (acc.1.reduceOption ++ is.filterMap (slotAt H.pairs)) ∧
        ((∀ i ∈ is, ∀ x, slotAt H.pairs i = some x → H.hashes.getD i 0 = hash x.1) →
          Probing (fun x => (hash x.1).toNat) acc.1 → HashesOK hash acc.1 acc.2 →
          Probing (fun x => (hash x.1).toNat) r.1 ∧ HashesOK hash r.1 r.2)
  | [], acc, h1, h2, _ => ⟨acc, rfl, h1, h2, by simp, fun _ hp hh => ⟨hp, hh⟩⟩
  | i :: is, acc, h1, h2, hroom => by
    cases hs : slotAt H.pairs i with
    | none =>
      -- an empty slot is skipped
      rw [List.filterMap_cons, hs] at hroom ⊢
      obtain ⟨r, hr, hl1, hl2, hperm, hrest⟩ := rehashLoop_spec H hpow is acc h1 h2 hroom
      refine ⟨r, ?_, hl1, hl2, hperm, fun hsrc => hrest fun i' hi' => hsrc i' (.tail _ hi')⟩
      simpa [rehashLoop, hs] using hr
    | some x =>
      rw [List.filterMap_cons, hs, List.length_cons] at hroom
      rw [List.filterMap_cons, hs]
      set h := H.hashes.getD i 0
      -- there is an empty slot for `x`, and the probe from its stored hash finds one
      have hcount : acc.1.countP (·.isSome) < acc.1.length := by omega
      obtain ⟨q, hq⟩ := exists_none_of_countP_lt hcount
      obtain ⟨d, hd, hprobe, hfree, hbefore⟩ := probe_free acc.1 h.toNat hq
      rw [h1] at hd hprobe hfree hbefore
      have hloop : probeLoop (fun pos => (pos + 1) &&& (n' - 1))
          (fun pos => (slotAt acc.1 pos).isNone) n' (h.toNat &&& (n' - 1)) =
            some ((h.toNat + d) % n') := by
        rw [probeLoop_mask hpow]
        exact hprobe
      have hposlt : (h.toNat + d) % n' < n' := Nat.mod_lt _ (by omega)
      have hnone : acc.1[(h.toNat + d) % n']? = some none :=
        getElem?_of_slotAt_none hfree (by rw [h1]; exact hposlt)
      obtain ⟨r, hr, hl1, hl2, hperm, hrest⟩ := rehashLoop_spec H hpow is
        (acc.1.set ((h.toNat + d) % n') (some x), acc.2.set ((h.toNat + d) % n') h)
        (by simp [h1]) (by simp [h2])
        (by rw [countP_isSome_set_of_none hnone]; omega)
      refine ⟨r, ?_, hl1, hl2, ?_, ?_⟩
      · simp only [rehashLoop, hs]
        rw [hloop]
        exact hr
      · exact hperm.trans (((reduceOption_set_of_none hnone x).append_right _).trans
          List.perm_middle.symm)
      · intro hsrc hp hh
        -- the stored hash is the hash of the key, so `x` goes to its own home slot's run
        have hxh : h = hash x.1 := hsrc i (List.mem_cons_self ..) x hs
        apply hrest (fun i' hi' => hsrc i' (.tail _ hi'))
        · have hset := hp.set (x := x) (d := d) (by rw [h1]; exact hd)
            (by rw [h1, ← hxh]; exact hbefore)
          rwa [h1, ← hxh] at hset
        · have hset := hh.set (by rw [h2]; exact hposlt) x
          rwa [← hxh] at hset

/-- `rehash` moves every pair of a table whose size is a power of two into twice as many slots;
with the stored hashes right, the new table keeps them right and keeps the linear-probing
invariant. -/
theorem rehash_spec (H : Kvhash) (hpow : ∃ m, H.nslots = 2 ^ m) :
    ∃ H', rehash H = some H' ∧ H'.nslots = 2 * H.nslots ∧ H'.hashes.length = 2 * H.nslots ∧
      H'.nkeys = H.nkeys ∧ H'.pairs.reduceOption.Perm H.pairs.reduceOption ∧
      (HashesOK hash H.pairs H.hashes →
        Probing (fun x => (hash x.1).toNat) H'.pairs ∧ HashesOK hash H'.pairs H'.hashes) := by
  have hpow' : ∃ m, H.nslots * 2 = 2 ^ m := by
    obtain ⟨m, hm⟩ := hpow
    exact ⟨m + 1, by rw [hm, pow_succ]⟩
  -- at most `nslots` pairs go into twice as many slots
  have hroom : (List.replicate (H.nslots * 2) (none : Option (KVLDSKey × Option KVLDSKey))).countP
      (·.isSome) + ((List.range H.nslots).filterMap (slotAt H.pairs)).length ≤ H.nslots * 2 := by
    simp only [Kvhash.nslots]
    rw [filterMap_slotAt_range, ← countP_isSome_eq, List.countP_eq_zero.mpr (by simp)]
    have := List.countP_le_length (p := (·.isSome)) (l := H.pairs)
    omega
  obtain ⟨r, hr, hl1, hl2, hperm, hrest⟩ := @rehashLoop_spec hash H _ hpow' (List.range H.nslots)
    (List.replicate (H.nslots * 2) none, List.replicate (H.nslots * 2) 0) (by simp) (by simp) hroom
  refine ⟨{ H with pairs := r.1, hashes := r.2 }, by simp only [rehash]; rw [hr]; rfl,
    by simp only [Kvhash.nslots, hl1]; ring, by simp only [hl2]; ring, rfl, ?_, fun hh => ?_⟩
  · simpa [Kvhash.nslots, filterMap_slotAt_range] using hperm
  · refine hrest (fun i _ x hx => ?_) (probing_replicate _ _) (hashesOK_replicate _ _)
    have := hh i x (getElem?_of_slotAt hx)
    simp [List.getD_eq_getElem?_getD, this]

namespace Kvhash.Table

variable {H : Kvhash}

/-- `nkeys` plays no part in the table. -/
theorem setNkeys (hT : H.Table hash) (n : ℕ) : ({ H with nkeys := n } : Kvhash).Table hash :=
  ⟨hT.pow, hT.four_le, hT.hashes_length, hT.probing, hT.hashes_eq, hT.nodup⟩

/-- `rehash` keeps the table, in twice as many slots and with the same pairs. -/
theorem rehash (hT : H.Table hash) :
    ∃ H', Datastruct.rehash H = some H' ∧ H'.Table hash ∧ H'.nslots = 2 * H.nslots ∧
      H'.nkeys = H.nkeys ∧ H'.pairs.countP (·.isSome) = H.pairs.countP (·.isSome) := by
  obtain ⟨H', hre, hn, hlen, hnk, hperm, hrest⟩ := @rehash_spec hash H hT.pow
  obtain ⟨hprobing, hhashes⟩ := hrest hT.hashes_eq
  obtain ⟨m, hm⟩ := hT.pow
  refine ⟨H', hre, ⟨⟨m + 1, by rw [hn, hm, pow_succ, mul_comm]⟩, by have := hT.four_le; omega,
    by rw [hlen, hn], hprobing, hhashes, ?_⟩, hn, hnk, ?_⟩
  · -- the keys are the same, in another order
    have hkeys : H'.keys.Perm H.keys := by
      simp only [Kvhash.keys, List.reduceOption_map]
      exact hperm.map _
    exact hkeys.nodup_iff.mpr hT.nodup
  · rw [countP_isSome_eq, countP_isSome_eq, hperm.length_eq]

end Kvhash.Table

/-- `kvhash_postadd` after a pair was stored: the count is right again, and the table is rehashed
when the new pair takes it past three quarters; either way the invariant holds again. -/
theorem kvhashPostadd_inv {H : Kvhash} (hT : H.Table hash)
    (hcount : H.nkeys + 1 = H.pairs.countP (·.isSome)) :
    ∃ H', kvhashPostadd H = some H' ∧ H'.Inv hash := by
  have hle : H.pairs.countP (·.isSome) ≤ H.nslots := List.countP_le_length
  simp only [kvhashPostadd]
  split_ifs with hload
  · -- twice the slots for at most as many pairs as there were slots
    obtain ⟨H', hre, hT', hn, hnk, hcnt⟩ := (hT.setNkeys (H.nkeys + 1)).rehash
    have hn' : H'.nslots = 2 * H.nslots := hn
    have hnk' : H'.nkeys = H.nkeys + 1 := hnk
    have hcnt' : H'.pairs.countP (·.isSome) = H.pairs.countP (·.isSome) := hcnt
    refine ⟨H', hre, hT', by rw [hcnt', hnk']; exact hcount, ?_⟩
    rw [hn', hnk']
    omega
  · exact ⟨_, rfl, hT.setNkeys _, hcount, by dsimp only at hload ⊢; omega⟩

/-- The empty table of `kvhash_init`. -/
theorem kvhashInit_inv : (kvhashInit).Inv hash :=
  ⟨⟨⟨2, rfl⟩, le_rfl, rfl, probing_replicate _ _,
    hashesOK_replicate 4 _, by simp [Kvhash.keys, kvhashInit]⟩,
    rfl, by decide⟩

/-- Between operations a quarter of the slots, and so at least one, is empty. -/
theorem Kvhash.Inv.exists_free {H : Kvhash} (hI : H.Inv hash) : ∃ q : ℕ, H.pairs[q]? = some none := by
  apply exists_none_of_countP_lt
  have hload := hI.load
  have hfour := hI.four_le
  rw [← hI.nkeys_eq]
  simp only [Kvhash.nslots] at hload hfour
  omega

/-- Every operation keeps the invariant. -/
theorem KvhashStep.inv {H H' : Kvhash} (hI : H.Inv hash) (hs : KvhashStep hash H H') :
    H'.Inv hash := by
  cases hs with
  | search h =>
    obtain ⟨hT', hpairs, hnkeys⟩ := hI.toTable.search_table h
    refine ⟨hT', by rw [hnkeys, hpairs]; exact hI.nkeys_eq, ?_⟩
    simpa [Kvhash.nslots, hpairs, hnkeys] using hI.load
  | add h hempty hpost =>
    obtain ⟨hT₂, hcount, -, hnk⟩ := hI.toTable.add_table hI.exists_free h hempty _
    obtain ⟨H'', hpost', hI''⟩ := kvhashPostadd_inv hT₂ (by rw [hcount, hnk, hI.nkeys_eq])
    rw [hpost, Option.some.injEq] at hpost'
    rwa [hpost']
  | setValue h hslot =>
    obtain ⟨hT₂, hcount, hn, hnk⟩ := hI.toTable.setValue_table h hslot _
    exact ⟨hT₂, by rw [hcount, hnk, hI.nkeys_eq], by rw [hn, hnk]; exact hI.load⟩

/-- The invariant holds in every state the operations reach. -/
theorem reachable_inv {H : Kvhash} (h : Reachable (· = kvhashInit) (KvhashStep hash) H) :
    H.Inv hash :=
  h.invariant (fun _ hs => hs ▸ kvhashInit_inv) fun _ _ hI hs => KvhashStep.inv hI hs

theorem kvhash_linearProbing (hash : KVLDSKey → UInt32) :
    (∀ H, Reachable (· = kvhashInit) (KvhashStep hash) H →
      (∃ m, H.nslots = 2 ^ m) ∧ H.nkeys = H.pairs.countP (·.isSome) ∧
      (∃ q : ℕ, H.pairs[q]? = some none) ∧
      Probing (fun x => (hash x.1).toNat) H.pairs ∧ HashesOK hash H.pairs H.hashes ∧
      ∀ k, ∃ pos,
        kvhashSearch hash H k = some ({ H with hashes := H.hashes.set pos (hash k) }, pos) ∧
          (k ∈ H.keys → ∃ v, slotAt H.pairs pos = some (k, v)) ∧
          (k ∉ H.keys → slotAt H.pairs pos = none)) ∧
    ∀ H : Kvhash, (∃ m, H.nslots = 2 ^ m) →
      ∃ H', rehash H = some H' ∧ H'.nslots = 2 * H.nslots ∧
        H'.pairs.reduceOption.Perm H.pairs.reduceOption := by
  refine ⟨fun H hreach => ?_, fun H hpow => ?_⟩
  · have hI := reachable_inv hreach
    exact ⟨hI.pow, hI.nkeys_eq, hI.exists_free, hI.probing, hI.hashes_eq,
      hI.toTable.kvhashSearch_spec hI.exists_free⟩
  · obtain ⟨H', hre, hn, -, -, hperm, -⟩ := @rehash_spec hash H hpow
    exact ⟨H', hre, hn, hperm⟩

/-- The key of the one byte `b`. -/
def oneByteKey (b : UInt8) : KVLDSKey := ⟨[b], KVLDSKey.length_singleton_le b⟩

/-- The first byte of a key as its hash: the keys `1`, `5` and `9` share the home slot 1 of a
table of four slots. -/
def firstByteHash (k : KVLDSKey) : UInt32 := (k.buf.headD 0).toUInt32

/-- The keys 1, 5, 9 and 2 added to a new table: 5 and 9 probe past 1, and the fourth key makes
`kvhash_postadd` rehash into eight slots.  The search for 9 then finds it, and a further rehash
doubles the table again and keeps its pairs. -/
theorem kvhash_linearProbing_fourKeys :
    ∃ H, Reachable (· = kvhashInit) (KvhashStep firstByteHash) H ∧ H.nslots = 8 ∧ H.nkeys = 4 ∧
      Probing (fun x => (firstByteHash x.1).toNat) H.pairs ∧
      (∃ pos v, kvhashSearch firstByteHash H (oneByteKey 9) =
          some ({ H with hashes := H.hashes.set pos (firstByteHash (oneByteKey 9)) }, pos) ∧
        slotAt H.pairs pos = some (oneByteKey 9, v)) ∧
      ∃ H', rehash H = some H' ∧ H'.nslots = 16 ∧ H'.pairs.reduceOption.Perm H.pairs.reduceOption := by
  have h₀ : Reachable (· = kvhashInit) (KvhashStep firstByteHash) kvhashInit := .init rfl
  have h₄ := ((((h₀.tail (.add (k := oneByteKey 1) (v := none) rfl rfl rfl)).tail
    (.add (k := oneByteKey 5) (v := none) rfl rfl rfl)).tail
    (.add (k := oneByteKey 9) (v := none) rfl rfl rfl)).tail
    (.add (k := oneByteKey 2) (v := none) rfl rfl rfl))
  -- name the table the four adds reach
  obtain ⟨H, hH, hreach⟩ : ∃ H, H = _ ∧ Reachable (· = kvhashInit) (KvhashStep firstByteHash) H :=
    ⟨_, rfl, h₄⟩
  have h8 : H.nslots = 8 := by rw [hH]; rfl
  obtain ⟨-, -, -, hprobe, -, hsearch⟩ := (kvhash_linearProbing firstByteHash).1 H hreach
  obtain ⟨pos, hpos, hfound, -⟩ := hsearch (oneByteKey 9)
  obtain ⟨v, hv⟩ := hfound (by rw [hH]; decide)
  obtain ⟨H', hre, hn, hperm⟩ := (kvhash_linearProbing firstByteHash).2 H ⟨3, h8⟩
  exact ⟨H, hreach, h8, by rw [hH]; rfl, hprobe, ⟨pos, v, hpos, hv⟩, H', hre, by rw [hn, h8],
    hperm⟩

end Lemmas

end Kivaloo.Datastruct
