import Mathlib
import Kivaloo.Kvlds.Sync
import Kivaloo.Lib.BigEndian

/-!
# The page format (kvlds/serialize.c)

A page is the magic `"KVLDS\0"`, the number of keys (two bytes, big-endian), the height with
`0x80` added for a root, the prefix length `mlen_t`, for a root the number of nodes of the tree
(eight bytes), and then the data: for a leaf its keys and then its values, for a parent its
separators and then a record of twenty bytes per child (page number, oldest leaf, page size).
A key or value is its length byte followed by its bytes.  `serialize` writes the page into a
buffer of `buflen` bytes and fills the rest with zeros; `deserialize` reads it back and rejects
a page whose bytes after the data are not all zero.

The model works on lists of bytes.  The C code rewrites the key pointers of the node to point
into the new buffer; the keys are the same bytes, so the model leaves the node as it is.

The main results: `serializeBuf_eq_some` (the assertions of `serialize` hold for a node whose
cached size is right), `deserialize_pageData` (the page reads back as the node it was written
from, whatever the padding is, provided it is zeros), `deserializeRoot_pageData` (the node count
of a root), `deserialize_trailing` (any page `deserialize` accepts is zero after its data), and
`deserialize_serializeBuf_page` (the byte format refines the page contents of `Sync`).
-/

namespace Kivaloo.Kvlds

open Kivaloo.Lib Node

/-! ## Writing a page -/

/-- The magic bytes `"KVLDS\0"`. -/
def kvldsMagic : List UInt8 := [75, 86, 76, 68, 83, 0]

/-- `kvldskey_serialize(K, buf)`: the length byte, then the data. -/
def kvldskeySerialize (K : KVLDSKey) : List UInt8 := K.len.toUInt8 :: K.buf

/-- The record of a child in its parent's page: `be64enc` of its page number and of its oldest
leaf, and `be32enc` of its `uint32_t` page size, which is `(uint32_t)(-1)` when not known. -/
def childBytes (c : Node) : List UInt8 :=
  beEnc 8 c.info.pagenum.toNat ++ beEnc 8 c.info.oldestleaf.toNat ++
    beEnc 4 (c.info.pagesize.getD (2 ^ 32 - 1))

/-- The byte after the key count: the height, plus `0x80` for a root. -/
def heightByte (root : Bool) (height : ℕ) : UInt8 :=
  if root then (0x80 + height).toUInt8 else height.toUInt8

/-- The data of a node: a leaf's keys and then its values, or a parent's separators and then
its child records. -/
def nodeData : Node → List UInt8
  | .leaf _ ps =>
    (ps.map fun p => kvldskeySerialize p.1).flatten ++ (ps.map fun p => kvldskeySerialize p.2).flatten
  | .parent _ ks cs => (ks.map kvldskeySerialize).flatten ++ (cs.map childBytes).flatten

/-- What `serialize(T, N, buflen)` writes before the zero padding, `T->nnodes` being
`nnodes`. -/
def pageData (nnodes : ℕ) (N : Node) : List UInt8 :=
  kvldsMagic ++ beEnc 2 N.nkeys ++ [heightByte N.info.root N.info.height, N.info.mlenT.toUInt8] ++
    (if N.info.root then beEnc 8 nnodes else []) ++ nodeData N

/-- `serialize(T, N, buflen)`: the buffer of `buflen` bytes, or `none` when an assertion fails. -/
def serializeBuf (nnodes : ℕ) (N : Node) (buflen : ℕ) : Option (List UInt8) :=
  -- assert(N->state == NODE_STATE_DIRTY), assert(N->nkeys <= UINT16_MAX),
  -- assert(pagelen <= buflen)
  if N.info.state = .dirty ∧ N.nkeys ≤ 65535 ∧ serializeSize N ≤ buflen then
    -- assert(N->v.children[i]->merging == 0)
    if N.children.any (·.info.merging) then none
    -- assert(p == N->pagebuf + pagelen): what was written has the size `serialize_size` gave
    else if (pageData nnodes N).length = serializeSize N then
      some (pageData nnodes N ++ List.replicate (buflen - serializeSize N) 0)
    else none
  else none

/-! ## Reading a page -/

/-- A child record read back, as `node_alloc(pagenum, oldestleaf, pagesize)` stores it. -/
structure ChildRecord where
  pagenum : UInt64
  oldestleaf : UInt64
  pagesize : UInt32
deriving DecidableEq

/-- What `deserialize` reads into a node: a leaf (height 0) with its prefix lengths `mlen_t`
and `mlen_n` and its pairs, or a parent with its height, `mlen_t`, separators and children. -/
inductive PageNode
  | leaf (root : Bool) (mlenT mlenN : ℕ) (pairs : List (KVLDSKey × KVLDSKey))
  | parent (root : Bool) (height mlenT : ℕ) (keys : List KVLDSKey) (children : List ChildRecord)
deriving DecidableEq

/-- The bytes a length byte counts fit in a key. -/
theorem length_take_toNat_le (len : UInt8) (p : List UInt8) : (p.take len.toNat).length ≤ 255 := by
  have hlen := len.toNat_lt
  have htake := List.length_take_le len.toNat p
  omega

/-- A serialized key at the front of the page: there must be a length byte and as many bytes
as it says. -/
def parseKey : List UInt8 → Option (KVLDSKey × List UInt8)
  | [] => none
  | len :: p =>
    if len.toNat ≤ p.length then some (⟨p.take len.toNat, length_take_toNat_le len p⟩, p.drop len.toNat)
    else none

/-- The loop of `deserialize` over `n` keys (or values). -/
def parseKeys : ℕ → List UInt8 → Option (List KVLDSKey × List UInt8)
  | 0, p => some ([], p)
  | n + 1, p => do
    let (k, p) ← parseKey p
    let (ks, p) ← parseKeys n p
    some (k :: ks, p)

/-- The loop of `deserialize` over `n` child records of `SERIALIZE_PERCHILD` bytes. -/
def parseChildren : ℕ → List UInt8 → Option (List ChildRecord × List UInt8)
  | 0, p => some ([], p)
  | n + 1, p =>
    if p.length < serializePerchild then none
    else do
      let (cs, q) ← parseChildren n (p.drop serializePerchild)
      some (⟨(beDec (p.take 8)).toUInt64, (beDec ((p.drop 8).take 8)).toUInt64,
        (beDec ((p.drop 16).take 4)).toUInt32⟩ :: cs, q)

/-- The data of a page after its header, for a node with `nkeys` keys: a leaf's keys and
values, or a parent's separators and `nkeys + 1` child records, and then nothing but zeros. -/
def deserializeData (root : Bool) (height mlenT nkeys : ℕ) (p : List UInt8) : Option PageNode :=
  if height = 0 then do
    let (ks, p) ← parseKeys nkeys p
    let (vs, p) ← parseKeys nkeys p
    -- the rest of the page must be zeros
    if p.all (· == 0) then some (.leaf root mlenT (leafMlenN (ks.zip vs)) (ks.zip vs)) else none
  else do
    let (ks, p) ← parseKeys nkeys p
    let (cs, p) ← parseChildren (nkeys + 1) p
    if p.all (· == 0) then some (.parent root height mlenT ks cs) else none

/-- `deserialize(N, buf, buflen)` on the page `buf`: the node read, or `none` for an invalid
page. -/
def deserialize (buf : List UInt8) : Option PageNode :=
  if buf.length < 6 ∨ buf.take 6 ≠ kvldsMagic then none
  else
    -- the key count, the height byte and the prefix length; the C code checks that the first
    -- two are there and reads `mlen_t` without a check
    match buf.drop 6 with
    | n₁ :: n₀ :: x :: mlen :: p =>
      let root := x &&& 0x80 != 0
      -- the C code skips the root data without a check: on a page this short it reads past
      -- the buffer
      if root ∧ p.length < serializeRoot then none
      else
        deserializeData root (x &&& 0x7f).toNat mlen.toNat (beDec [n₁, n₀])
          (if root then p.drop serializeRoot else p)
    | _ => none

/-- `deserialize_root(T, buf)`: the node count stored after the header of a root page. -/
def deserializeRoot (buf : List UInt8) : ℕ := beDec ((buf.drop serializeOverhead).take 8)

/-! ## What a page reads back as -/

/-- The record `deserialize` reads for the child `c`: its page number, its oldest leaf and its
page size as the `uint32_t` field holds it. -/
def childRecord (c : Node) : ChildRecord :=
  ⟨c.info.pagenum, c.info.oldestleaf, (c.info.pagesize.getD (2 ^ 32 - 1)).toUInt32⟩

/-- The node `deserialize` should read from the page of `N`: the same root flag, height,
`mlen_t` and keys and values, and the records of its children.  (`mlen_n` is recomputed from
the keys, as `btree_node_mkleaf` computes it.) -/
def Node.pageNode : Node → PageNode
  | .leaf m ps => .leaf m.root m.mlenT (leafMlenN ps) ps
  | .parent m ks cs => .parent m.root m.height m.mlenT ks (cs.map childRecord)

/-- The root flag read back. -/
def PageNode.root : PageNode → Bool
  | .leaf root _ _ _ => root
  | .parent root _ _ _ _ => root

/-- The length of the header and the data of a page read back as `D`: the bytes after it are
the padding. -/
def PageNode.dataLen : PageNode → ℕ
  | .leaf root _ _ ps => headerLen root + pairsSize ps
  | .parent root _ _ ks cs =>
    headerLen root + (ks.map KVLDSKey.serialSize).sum + serializePerchild * cs.length

/-- The contents of the page in the terms of `Sync`. -/
def PageNode.toPage : PageNode → Page
  | .leaf root _ _ ps => ⟨root, 0, ps, [], []⟩
  | .parent root height _ ks cs => ⟨root, height, [], ks, cs.map fun c => ⟨c.pagenum, c.oldestleaf⟩⟩

/-! ## The pieces read back -/

@[simp] theorem length_kvldskeySerialize (K : KVLDSKey) :
    (kvldskeySerialize K).length = K.serialSize := by
  simp [kvldskeySerialize, KVLDSKey.serialSize, KVLDSKey.len]

/-- A key reads back, and the bytes after it are left. -/
theorem parseKey_kvldskeySerialize (K : KVLDSKey) (p : List UInt8) :
    parseKey (kvldskeySerialize K ++ p) = some (K, p) := by
  obtain ⟨buf, hbuf⟩ := K
  have hlen := KVLDSKey.toNat_ofNat_len ⟨buf, hbuf⟩
  simp only [KVLDSKey.len] at hlen
  simp [kvldskeySerialize, parseKey, KVLDSKey.len, Nat.toUInt8, hlen]

/-- The key loop reads back a list of keys. -/
theorem parseKeys_serialize (ks : List KVLDSKey) (p : List UInt8) :
    parseKeys ks.length ((ks.map kvldskeySerialize).flatten ++ p) = some (ks, p) := by
  induction ks with
  | nil => rfl
  | cons k ks ih =>
    rw [List.length_cons, List.map_cons, List.flatten_cons, List.append_assoc]
    simp [parseKeys, parseKey_kvldskeySerialize, ih]

/-- A child record reads back, and the bytes after it are left. -/
theorem parseChild_childBytes (c : Node) (rest : List UInt8) :
    ¬(childBytes c ++ rest).length < serializePerchild ∧
      (childBytes c ++ rest).drop serializePerchild = rest ∧
      (⟨(beDec ((childBytes c ++ rest).take 8)).toUInt64,
        (beDec (((childBytes c ++ rest).drop 8).take 8)).toUInt64,
        (beDec (((childBytes c ++ rest).drop 16).take 4)).toUInt32⟩ : ChildRecord) =
        childRecord c := by
  -- the record is its three fields, of 8, 8 and 4 bytes
  have hA := length_beEnc 8 c.info.pagenum.toNat
  have hB := length_beEnc 8 c.info.oldestleaf.toNat
  have hC := length_beEnc 4 (c.info.pagesize.getD (2 ^ 32 - 1))
  have hfields : childBytes c ++ rest = beEnc 8 c.info.pagenum.toNat ++
      (beEnc 8 c.info.oldestleaf.toNat ++ (beEnc 4 (c.info.pagesize.getD (2 ^ 32 - 1)) ++ rest)) := by
    simp [childBytes]
  refine ⟨?_, ?_, ?_⟩
  · rw [hfields]
    simp only [List.length_append, hA, hB, hC, serializePerchild]
    omega
  · rw [hfields, show serializePerchild = 8 + 8 + 4 from rfl, ← List.drop_drop, ← List.drop_drop,
      List.drop_left' hA, List.drop_left' hB, List.drop_left' hC]
  · rw [hfields, show 16 = 8 + 8 from rfl, ← List.drop_drop, List.drop_left' hA, List.drop_left' hB,
      List.take_left' hA, List.take_left' hB, List.take_left' hC]
    simp only [childRecord, beDec_beEnc]
    -- the numbers are below `2 ^ 64`; the page size is taken as a `uint32_t`
    simp
    exact UInt32.ofNat_mod_size

/-- The child loop reads back the records of a list of children. -/
theorem parseChildren_childBytes (cs : List Node) (p : List UInt8) :
    parseChildren cs.length ((cs.map childBytes).flatten ++ p) = some (cs.map childRecord, p) := by
  induction cs with
  | nil => rfl
  | cons c cs ih =>
    obtain ⟨hlen, hrest, hrec⟩ := parseChild_childBytes c ((cs.map childBytes).flatten ++ p)
    rw [List.length_cons, List.map_cons, List.flatten_cons, List.append_assoc, parseChildren,
      if_neg hlen, hrest, ih, hrec]
    rfl

/-- For a height below 128, the height byte has the root flag in its top bit and the height in
the other seven. -/
theorem heightByte_bits (root : Bool) {height : ℕ} (h : height < 128) :
    (heightByte root height &&& 0x80 != 0) = root ∧
      (heightByte root height &&& 0x7f).toNat = height := by
  have hlow : ∀ x : ℕ, x &&& 127 = x % 128 := fun x => Nat.and_two_pow_sub_one_eq_mod x 7
  have htop : ∀ x : ℕ, x &&& 128 = (x.testBit 7).toNat * 128 := fun x => Nat.and_two_pow x 7
  cases root with
  | false =>
    have hmod : height % 256 = height := Nat.mod_eq_of_lt (by omega)
    have hbit : height.testBit 7 = false := Nat.testBit_lt_two_pow (by omega)
    simp [heightByte, ← UInt8.toNat_inj, UInt8.toNat_and, hmod, hlow, htop, hbit,
      Nat.mod_eq_of_lt h]
  | true =>
    have hmod : (128 + height) % 256 = 128 + height := Nat.mod_eq_of_lt (by omega)
    have hbit : (128 + height).testBit 7 = true := by
      rw [show 128 + height = 2 ^ 7 + height from rfl, Nat.testBit_two_pow_add_eq,
        Nat.testBit_lt_two_pow (by omega)]
      rfl
    simp [heightByte, ← UInt8.toNat_inj, UInt8.toNat_and, hmod, hlow, htop, hbit, h]

/-! ## A page reads back -/

/-- The data of a leaf reads back as the leaf when the rest of the page is zeros. -/
theorem deserializeData_leaf (root : Bool) (mlenT : ℕ) (m : NodeInfo)
    (ps : List (KVLDSKey × KVLDSKey)) (t : List UInt8) :
    deserializeData root 0 mlenT ps.length (nodeData (.leaf m ps) ++ t) =
      if t.all (· == 0) then some (.leaf root mlenT (leafMlenN ps) ps) else none := by
  -- the keys, then the values
  have hkeys := parseKeys_serialize (ps.map Prod.fst)
    ((ps.map fun p => kvldskeySerialize p.2).flatten ++ t)
  have hvals := parseKeys_serialize (ps.map Prod.snd) t
  have hzip : (ps.map Prod.fst).zip (ps.map Prod.snd) = ps := by
    rw [← List.unzip_fst, ← List.unzip_snd, List.zip_unzip]
  simp only [List.length_map, List.map_map, Function.comp_def] at hkeys hvals
  simp only [deserializeData, nodeData, if_true, List.append_assoc, hkeys]
  simp [hvals, hzip]

/-- The data of a parent reads back as the parent when the rest of the page is zeros. -/
theorem deserializeData_parent (root : Bool) {height : ℕ} (hh : height ≠ 0) (mlenT : ℕ)
    (m : NodeInfo) {ks : List KVLDSKey} {cs : List Node} (hlen : cs.length = ks.length + 1)
    (t : List UInt8) :
    deserializeData root height mlenT ks.length (nodeData (.parent m ks cs) ++ t) =
      if t.all (· == 0) then some (.parent root height mlenT ks (cs.map childRecord)) else none := by
  have hkeys := parseKeys_serialize ks ((cs.map childBytes).flatten ++ t)
  have hcs := parseChildren_childBytes cs t
  rw [hlen] at hcs
  simp only [deserializeData, nodeData, if_neg hh, List.append_assoc, hkeys]
  simp [hcs]

/-- After the magic, the header gives the key count, the root flag, the height and the prefix
length; the eight bytes of a root's node count are skipped. -/
theorem deserialize_header (n₁ n₀ x mlen : UInt8) (p : List UInt8) :
    deserialize (kvldsMagic ++ n₁ :: n₀ :: x :: mlen :: p) =
      if (x &&& 0x80 != 0) = true ∧ p.length < serializeRoot then none
      else deserializeData (x &&& 0x80 != 0) (x &&& 0x7f).toNat mlen.toNat (beDec [n₁, n₀])
        (if (x &&& 0x80 != 0) = true then p.drop serializeRoot else p) := by
  have hmagic : kvldsMagic.length = 6 := rfl
  rw [deserialize, if_neg (by simp [kvldsMagic]), List.drop_left' hmagic]

/-- The root data skipped: the node count of a root, nothing for another node. -/
theorem skip_rootData (root : Bool) (nnodes : ℕ) (p : List UInt8) :
    ¬(root = true ∧ ((if root then beEnc 8 nnodes else []) ++ p).length < serializeRoot) ∧
      (if root = true then ((if root then beEnc 8 nnodes else []) ++ p).drop serializeRoot
        else (if root then beEnc 8 nnodes else []) ++ p) = p := by
  cases root with
  | false => simp
  | true =>
    have h8 := length_beEnc 8 nnodes
    refine ⟨by simp [serializeRoot], ?_⟩
    simp only [if_true]
    exact List.drop_left' h8

/-- The page of a node reads back as the node, whatever follows it, provided that is zeros. -/
theorem deserialize_pageData (nnodes : ℕ) {N : Node} (hh : N.info.height < 128)
    (hleaf : N.isLeaf = true ↔ N.info.height = 0) (hmlen : N.info.mlenT < 256)
    (hk : N.nkeys < 65536) (hcs : N.isLeaf = false → N.children.length = N.nkeys + 1)
    (t : List UInt8) :
    deserialize (pageData nnodes N ++ t) = if t.all (· == 0) then some N.pageNode else none := by
  obtain ⟨hroot, hheight⟩ := heightByte_bits N.info.root hh
  -- the key count is two bytes
  obtain ⟨n₁, n₀, hcount⟩ : ∃ n₁ n₀, beEnc 2 N.nkeys = [n₁, n₀] := ⟨_, _, rfl⟩
  have hnkeys : beDec [n₁, n₀] = N.nkeys := by
    rw [← hcount, beDec_beEnc]
    exact Nat.mod_eq_of_lt hk
  have hm : N.info.mlenT.toUInt8.toNat = N.info.mlenT := by
    simp [Nat.toUInt8, UInt8.toNat_ofNat', Nat.mod_eq_of_lt hmlen]
  have hbuf : pageData nnodes N ++ t = kvldsMagic ++ n₁ :: n₀ :: heightByte N.info.root N.info.height ::
      N.info.mlenT.toUInt8 :: ((if N.info.root then beEnc 8 nnodes else []) ++ (nodeData N ++ t)) := by
    simp [pageData, hcount]
  obtain ⟨hlong, hskip⟩ := skip_rootData N.info.root nnodes (nodeData N ++ t)
  rw [hbuf, deserialize_header, hroot, if_neg hlong, hskip, hheight, hm, hnkeys]
  cases N with
  | leaf m ps =>
    have h0 : m.height = 0 := hleaf.mp rfl
    simp only [info_leaf, Node.nkeys, Node.pageNode, h0]
    exact deserializeData_leaf m.root m.mlenT m ps t
  | parent m ks cs =>
    have h0 : m.height ≠ 0 := fun h => absurd (hleaf.mpr h) (by simp [isLeaf])
    simp only [info_parent, Node.nkeys, Node.pageNode]
    exact deserializeData_parent m.root h0 m.mlenT m (hcs rfl) t

example : deserialize (pageData 7 (mkleaf []) ++ [0, 0]) = some (.leaf false 0 255 []) := by
  decide

/-! ## Sizes -/

/-- The keys take their serialized sizes. -/
theorem length_flatten_kvldskeySerialize (ks : List KVLDSKey) :
    ((ks.map kvldskeySerialize).flatten).length = (ks.map KVLDSKey.serialSize).sum := by
  induction ks with
  | nil => rfl
  | cons k ks ih => simp [ih]

/-- The child records take twenty bytes each. -/
theorem length_flatten_childBytes (cs : List Node) :
    ((cs.map childBytes).flatten).length = serializePerchild * cs.length := by
  induction cs with
  | nil => rfl
  | cons c cs ih =>
    simp only [List.map_cons, List.flatten_cons, List.length_append, ih, List.length_cons]
    simp only [childBytes, List.length_append, length_beEnc, serializePerchild]
    ring

theorem pairsSize_eq (ps : List (KVLDSKey × KVLDSKey)) :
    pairsSize ps = (ps.map fun p => p.1.serialSize).sum + (ps.map fun p => p.2.serialSize).sum := by
  induction ps with
  | nil => rfl
  | cons p ps ih =>
    obtain ⟨k, v⟩ := p
    simp only [pairsSize, ih, List.map_cons, List.sum_cons]
    omega

/-- Without merging children, a parent's body is a child record and a separator for each
separator. -/
theorem parentBodySize_eq :
    ∀ (ks : List KVLDSKey) (cs : List Node), (∀ c ∈ cs, c.info.merging = false) →
      cs.length = ks.length + 1 →
      parentBodySize ks cs = (ks.map KVLDSKey.serialSize).sum + serializePerchild * ks.length
  | [], _, _, _ => by simp [parentBodySize]
  | k :: ks, [], _, hlen => by simp at hlen
  | k :: ks, c :: cs, hm, hlen => by
    have hc : c.info.merging = false := hm c (List.mem_cons_self ..)
    have ih := parentBodySize_eq ks cs (fun d hd => hm d (List.mem_cons_of_mem c hd))
      (by simpa using hlen)
    simp only [parentBodySize, hc, ih, List.map_cons, List.sum_cons, List.length_cons]
    simp only [Bool.false_eq_true, if_false]
    ring

/-- What `serialize` writes has the size `serialize_size` computes, for a node without merging
children and with one child more than keys. -/
theorem length_pageData (nnodes : ℕ) {N : Node} (hm : ∀ c ∈ N.children, c.info.merging = false)
    (hcs : N.isLeaf = false → N.children.length = N.nkeys + 1) :
    (pageData nnodes N).length = computeSize N := by
  have hheader : (pageData nnodes N).length = headerLen N.info.root + (nodeData N).length := by
    cases hr : N.info.root <;> simp [pageData, hr, kvldsMagic, headerLen, serializeOverhead, serializeRoot] <;> omega
  rw [hheader]
  cases N with
  | leaf m ps =>
    simp [nodeData, computeSize, pairsSize_eq, List.map_map, Function.comp_def]
  | parent m ks cs =>
    have hlen : cs.length = ks.length + 1 := hcs rfl
    have hbody := parentBodySize_eq ks cs hm hlen
    simp only [nodeData, computeSize, info_parent, hbody, List.length_append,
      length_flatten_kvldskeySerialize, length_flatten_childBytes, hlen]
    ring

theorem serializeBuf_eq_some (nnodes : ℕ) {N : Node} {buflen : ℕ} (hd : N.info.state = .dirty)
    (hk : N.nkeys ≤ 65535) (hbuf : computeSize N ≤ buflen)
    (hcache : N.info.pagesize = none ∨ N.info.pagesize = some (computeSize N))
    (hm : ∀ c ∈ N.children, c.info.merging = false)
    (hcs : N.isLeaf = false → N.children.length = N.nkeys + 1) :
    serializeBuf nnodes N buflen =
      some (pageData nnodes N ++ List.replicate (buflen - computeSize N) 0) := by
  have hsize : serializeSize N = computeSize N := by
    rcases hcache with h | h <;> simp [serializeSize, h]
  have hany : N.children.any (·.info.merging) = false := by
    simpa using hm
  rw [serializeBuf, if_pos ⟨hd, hk, hsize ▸ hbuf⟩, hany, if_neg Bool.false_ne_true, hsize,
    if_pos (length_pageData nnodes hm hcs)]

/-- A root page carries the node count after its header. -/
theorem deserializeRoot_pageData {nnodes : ℕ} {N : Node} (hr : N.info.root = true)
    (hn : nnodes < 2 ^ 64) (t : List UInt8) : deserializeRoot (pageData nnodes N ++ t) = nnodes := by
  have hheader : (kvldsMagic ++ beEnc 2 N.nkeys ++
      [heightByte N.info.root N.info.height, N.info.mlenT.toUInt8]).length = serializeOverhead := by
    simp [kvldsMagic, serializeOverhead]
  have hbuf : pageData nnodes N ++ t = (kvldsMagic ++ beEnc 2 N.nkeys ++
      [heightByte N.info.root N.info.height, N.info.mlenT.toUInt8]) ++
      (beEnc 8 nnodes ++ (nodeData N ++ t)) := by
    simp [pageData, hr]
  rw [deserializeRoot, hbuf, List.drop_left' hheader, List.take_left' (length_beEnc 8 nnodes),
    beDec_beEnc]
  exact Nat.mod_eq_of_lt (by simpa using hn)

/-! ## What a page that is accepted looks like -/

/-- A key that reads is its serialization followed by the rest. -/
theorem parseKey_eq_some {p q : List UInt8} {k : KVLDSKey} (h : parseKey p = some (k, q)) :
    p = kvldskeySerialize k ++ q := by
  cases p with
  | nil => simp [parseKey] at h
  | cons len p =>
    simp only [parseKey] at h
    split_ifs at h with hle
    obtain ⟨rfl, rfl⟩ := Prod.mk.inj (Option.some.inj h)
    have hlen : (p.take len.toNat).length = len.toNat := List.length_take_of_le hle
    simp [kvldskeySerialize, KVLDSKey.len, hlen, Nat.toUInt8]

theorem parseKey_eq_some_iff {p : List UInt8} {x : KVLDSKey × List UInt8} :
    parseKey p = some x ↔ p = kvldskeySerialize x.1 ++ x.2 :=
  ⟨parseKey_eq_some, fun h => by rw [h, parseKey_kvldskeySerialize]⟩

/-- The keys the loop reads are serialized in front of the rest, as many as asked for. -/
theorem parseKeys_eq_some :
    ∀ {n : ℕ} {p q : List UInt8} {ks : List KVLDSKey}, parseKeys n p = some (ks, q) →
      p = (ks.map kvldskeySerialize).flatten ++ q ∧ ks.length = n
  | 0, p, q, ks, h => by
    simp only [parseKeys, Option.some.injEq, Prod.mk.injEq] at h
    obtain ⟨rfl, rfl⟩ := h
    simp
  | n + 1, p, q, ks, h => by
    simp only [parseKeys, Option.bind_eq_bind, Option.bind_eq_some_iff] at h
    obtain ⟨⟨k, p₁⟩, hk, ⟨ks₁, q₁⟩, hks, hres⟩ := h
    dsimp only at hks hres
    obtain ⟨rfl, rfl⟩ := Prod.mk.inj (Option.some.inj hres)
    obtain ⟨hp₁, hlen⟩ := parseKeys_eq_some hks
    refine ⟨?_, by simp [hlen]⟩
    rw [parseKey_eq_some hk, hp₁]
    simp

/-- The child records the loop reads take twenty bytes each in front of the rest. -/
theorem parseChildren_eq_some :
    ∀ {n : ℕ} {p q : List UInt8} {cs : List ChildRecord}, parseChildren n p = some (cs, q) →
      ∃ pre, p = pre ++ q ∧ pre.length = serializePerchild * cs.length
  | 0, p, q, cs, h => by
    simp only [parseChildren, Option.some.injEq, Prod.mk.injEq] at h
    obtain ⟨rfl, rfl⟩ := h
    exact ⟨[], rfl, rfl⟩
  | n + 1, p, q, cs, h => by
    simp only [parseChildren] at h
    split_ifs at h with hshort
    simp only [Option.bind_eq_bind, Option.bind_eq_some_iff] at h
    obtain ⟨⟨cs₁, q₁⟩, hcs, hres⟩ := h
    dsimp only at hres
    obtain ⟨rfl, rfl⟩ := Prod.mk.inj (Option.some.inj hres)
    obtain ⟨pre, hp, hlen⟩ := parseChildren_eq_some hcs
    -- the record is the first twenty bytes
    refine ⟨p.take serializePerchild ++ pre, ?_, ?_⟩
    · rw [List.append_assoc, ← hp, List.take_append_drop]
    · simp only [List.length_append, List.length_take, hlen, List.length_cons]
      rw [min_eq_left (not_lt.mp hshort)]
      ring

/-- The pairs of a leaf read back take the sizes of their keys and of their values. -/
theorem pairsSize_zip :
    ∀ {ks vs : List KVLDSKey}, ks.length = vs.length →
      pairsSize (ks.zip vs) = (ks.map KVLDSKey.serialSize).sum + (vs.map KVLDSKey.serialSize).sum
  | [], [], _ => rfl
  | [], _ :: _, h => by simp at h
  | _ :: _, [], h => by simp at h
  | k :: ks, v :: vs, h => by
    simp only [List.zip_cons_cons, pairsSize, List.map_cons, List.sum_cons,
      pairsSize_zip (by simpa using h : ks.length = vs.length)]
    ring

/-- The data `deserializeData` accepts: the keys and values, or the separators and child
records, and then zeros. -/
theorem deserializeData_eq_some {root : Bool} {height mlenT nkeys : ℕ} {p : List UInt8}
    {D : PageNode} (h : deserializeData root height mlenT nkeys p = some D) :
    D.root = root ∧ ∃ pre q, p = pre ++ q ∧ headerLen root + pre.length = D.dataLen ∧
      ∀ b ∈ q, b = 0 := by
  unfold deserializeData at h
  split_ifs at h with h0
  · -- a leaf: the keys, then the values
    simp only [Option.bind_eq_bind, Option.bind_eq_some_iff] at h
    obtain ⟨⟨ks, p₁⟩, hks, ⟨vs, p₂⟩, hvs, hres⟩ := h
    dsimp only at hvs hres
    split_ifs at hres with hzero
    cases hres
    obtain ⟨hp, hklen⟩ := parseKeys_eq_some hks
    obtain ⟨hp₁, hvlen⟩ := parseKeys_eq_some hvs
    refine ⟨rfl, (ks.map kvldskeySerialize).flatten ++ (vs.map kvldskeySerialize).flatten, p₂,
      by rw [hp, hp₁, List.append_assoc], ?_, by simpa using hzero⟩
    simp only [PageNode.dataLen, List.length_append, length_flatten_kvldskeySerialize,
      pairsSize_zip (hklen.trans hvlen.symm)]
  · -- a parent: the separators, then the child records
    simp only [Option.bind_eq_bind, Option.bind_eq_some_iff] at h
    obtain ⟨⟨ks, p₁⟩, hks, ⟨cs, p₂⟩, hcs, hres⟩ := h
    dsimp only at hcs hres
    split_ifs at hres with hzero
    cases hres
    obtain ⟨hp, -⟩ := parseKeys_eq_some hks
    obtain ⟨pre, hp₁, hlen⟩ := parseChildren_eq_some hcs
    refine ⟨rfl, (ks.map kvldskeySerialize).flatten ++ pre, p₂,
      by rw [hp, hp₁, List.append_assoc], ?_, by simpa using hzero⟩
    simp only [PageNode.dataLen, List.length_append, length_flatten_kvldskeySerialize, hlen]
    ring

/-- A page that `deserialize` accepts is zero after its header and data. -/
theorem deserialize_trailing {buf : List UInt8} {D : PageNode} (h : deserialize buf = some D) :
    D.dataLen ≤ buf.length ∧ ∀ b ∈ buf.drop D.dataLen, b = 0 := by
  unfold deserialize at h
  split_ifs at h with hmagic
  split at h
  · rename_i n₁ n₀ x mlen p hdrop
    simp only at h
    by_cases hshort : (x &&& 0x80 != 0) = true ∧ p.length < serializeRoot
    · rw [if_pos hshort] at h
      cases h
    rw [if_neg hshort] at h
    obtain ⟨-, pre, q, hp, hlen, hq⟩ := deserializeData_eq_some h
    -- the header is ten bytes, and eight more for a root
    have h10 : buf.drop serializeOverhead = p := by
      rw [show serializeOverhead = 6 + 4 from rfl, ← List.drop_drop, hdrop]
      rfl
    have hbuflen : buf.length = p.length + serializeOverhead := by
      have := congrArg List.length hdrop
      simp only [List.length_drop, List.length_cons] at this
      simp only [serializeOverhead]
      omega
    have hafter : buf.drop (headerLen (x &&& 0x80 != 0)) = pre ++ q := by
      rw [← hp]
      cases hr : (x &&& 0x80 != 0)
      · simp [headerLen, h10]
      · simp only [headerLen, if_true]
        rw [← List.drop_drop, h10]
    have hroom : headerLen (x &&& 0x80 != 0) ≤ buf.length := by
      cases hr : (x &&& 0x80 != 0)
      · simp [headerLen, hbuflen]
      · simp only [hr, true_and, not_lt] at hshort
        simp only [headerLen, if_true, hbuflen]
        omega
    have hsplit := congrArg List.length hafter
    simp only [List.length_drop, List.length_append] at hsplit
    refine ⟨by omega, ?_⟩
    rw [← hlen, ← List.drop_drop, hafter, List.drop_left]
    exact hq
  · cases h

/-! ## `serialize` and `deserialize` -/

/-- What a buffer `serialize` produced is. -/
theorem eq_pageData_of_serializeBuf {nnodes buflen : ℕ} {N : Node} {buf : List UInt8}
    (h : serializeBuf nnodes N buflen = some buf) :
    N.info.state = .dirty ∧ N.nkeys ≤ 65535 ∧ serializeSize N ≤ buflen ∧
      buf = pageData nnodes N ++ List.replicate (buflen - serializeSize N) 0 := by
  unfold serializeBuf at h
  split_ifs at h with hok
  cases h
  exact ⟨hok.1, hok.2.1, hok.2.2, rfl⟩

section RoundTrip

variable {nnodes buflen : ℕ} {N : Node} {buf : List UInt8}
  (hh : N.info.height < 128) (hleaf : N.isLeaf = true ↔ N.info.height = 0)
  (hmlen : N.info.mlenT < 256) (hcs : N.isLeaf = false → N.children.length = N.nkeys + 1)
include hh hleaf hmlen hcs

/-- The buffer `serialize` writes reads back as the node. -/
theorem deserialize_serializeBuf (h : serializeBuf nnodes N buflen = some buf) :
    deserialize buf = some N.pageNode := by
  obtain ⟨-, hk, -, rfl⟩ := eq_pageData_of_serializeBuf h
  rw [deserialize_pageData nnodes hh hleaf hmlen (by omega) hcs]
  simp

/-- The page contents of `Sync`'s model are what the buffer reads back as. -/
theorem deserialize_serializeBuf_page (h : serializeBuf nnodes N buflen = some buf) :
    (deserialize buf).map PageNode.toPage = serialize N buflen := by
  obtain ⟨hd, hk, hs, -⟩ := eq_pageData_of_serializeBuf h
  have hpage : N.pageNode.toPage = N.page := by
    cases N with
    | leaf m ps =>
      have h0 : m.height = 0 := hleaf.mp rfl
      simp [Node.pageNode, PageNode.toPage, Node.page, h0]
    | parent m ks cs =>
      simp [Node.pageNode, PageNode.toPage, Node.page, childRecord, Node.childRef]
  rw [deserialize_serializeBuf hh hleaf hmlen hcs h, Option.map_some, hpage, serialize,
    if_pos ⟨hd, hk, hs⟩]

end RoundTrip

theorem serializeBuf_roundTrip :
    (∀ (nnodes : ℕ) (N : Node) (buflen : ℕ), N.info.state = .dirty → N.nkeys ≤ 65535 →
      computeSize N ≤ buflen → (N.info.pagesize = none ∨ N.info.pagesize = some (computeSize N)) →
      (∀ c ∈ N.children, c.info.merging = false) →
      (N.isLeaf = false → N.children.length = N.nkeys + 1) →
      ∃ buf, serializeBuf nnodes N buflen = some buf) ∧
    (∀ (nnodes : ℕ) (N : Node) (buflen : ℕ) (buf : List UInt8),
      serializeBuf nnodes N buflen = some buf → N.info.height ≤ 63 →
      (N.isLeaf = true ↔ N.info.height = 0) → N.info.mlenT < 256 →
      (N.isLeaf = false → N.children.length = N.nkeys + 1) →
      deserialize buf = some N.pageNode ∧
        (N.info.root = true → nnodes < 2 ^ 64 → deserializeRoot buf = nnodes)) ∧
    (∀ (buf : List UInt8) (D : PageNode), deserialize buf = some D →
      D.dataLen ≤ buf.length ∧ ∀ b ∈ buf.drop D.dataLen, b = 0) := by
  refine ⟨fun nnodes N buflen hd hk hbuf hcache hm hcs => ?_,
    fun nnodes N buflen buf h hh hleaf hmlen hcs => ?_, fun _ _ h => deserialize_trailing h⟩
  · exact ⟨_, serializeBuf_eq_some nnodes hd hk hbuf hcache hm hcs⟩
  · refine ⟨deserialize_serializeBuf (by omega) hleaf hmlen hcs h, fun hr hn => ?_⟩
    obtain ⟨-, -, -, rfl⟩ := eq_pageData_of_serializeBuf h
    exact deserializeRoot_pageData hr hn _

/-- A dirty root of height 1 over two leaves of one pair each, as a split of a root leaf leaves
it. -/
def splitRootNode : Node :=
  .parent { mknodeInfo 1 0 with root := true } [.single 2]
    [mkleaf [(.single 1, ⟨[10, 11], by decide⟩)], mkleaf [(.single 2, .single 12)]]

/-- The root is serialized into a 512-byte page that reads back as the root, with the node count
`3`. -/
theorem serializeBuf_roundTrip_splitRoot :
    ∃ buf, serializeBuf 3 splitRootNode 512 = some buf ∧
      deserialize buf = some splitRootNode.pageNode ∧ deserializeRoot buf = 3 := by
  obtain ⟨buf, h⟩ := serializeBuf_roundTrip.1 3 splitRootNode 512 (by decide) (by decide)
    (by decide) (by decide) (by decide) (by decide)
  obtain ⟨hd, hr⟩ := serializeBuf_roundTrip.2.1 3 splitRootNode 512 buf h (by decide) (by decide)
    (by decide) (by decide)
  exact ⟨buf, h, hd, hr rfl (by norm_num)⟩

end Kivaloo.Kvlds
