import Mathlib
import Kivaloo.Lib.BigEndian

/-!
# Wire packets (lib/wire/wire_writepacket.c, wire_readpacket.c)

A packet on a connection is an 8-byte ID, a 4-byte data length, the CRC of these 12 bytes, the
data, and a trailer: the CRC of the data xor the header CRC (src/INTERFACES).  The CRC here is
any function giving four bytes (`crc`); nothing below depends on which.

`wire_writepacket_getbuf` writes the header and `wire_writepacket_done` the trailer, which it
computes from the header CRC 4 bytes before the data (`wireWritepacket`).  The reader looks at
what it has buffered (`wireReadpacketPeek`): fewer than 20 bytes or a packet not yet complete is
no packet, a bad header or data CRC is an error, and a complete packet is returned and then
consumed (`wireReadpacketConsume`).

On the concatenation of the packets written, at every cut of the stream the reader finds no
packet exactly while the first packet is incomplete, and then that packet, after which the
consumed stream is the rest of the packets (`wireReadpacketPeek_take`, `wireReadpackets_write`).
What the reader accepts is always a packet as the writer writes it (`eq_wireWritepacket_of_peek`),
so a frame with a bad header CRC or a bad trailer is rejected.
-/

namespace Kivaloo.Wire

open Kivaloo.Lib

/-- The four bytes at `off`, as `memcmp` and the trailer loop read them. -/
def bytesAt (data : List UInt8) (off : ℕ) : Fin 4 → UInt8 := fun i => data.getD (off + i) 0

theorem bytesAt_append_ofFn (l : List UInt8) (f : Fin 4 → UInt8) (rest : List UInt8) :
    bytesAt (l ++ List.ofFn f ++ rest) l.length = f := by
  funext i
  simp only [bytesAt, List.getD_eq_getElem?_getD, List.append_assoc,
    List.getElem?_append_right (Nat.le_add_right _ _), Nat.add_sub_cancel_left]
  rw [List.getElem?_append_left (by simp), List.getElem?_ofFn]
  simp

/-- What `wire_readpacket_peek` finds in the buffered bytes. -/
inductive PeekResult
  | nopacket
  | packet (ID : ℕ) (buf : List UInt8)
  | failed (warning : Option String)
  deriving DecidableEq

section

variable (crc : List UInt8 → Fin 4 → UInt8)

/-- `wire_writepacket_getbuf(W, ID, len)`: the header it constructs in place, the ID, the length
and the CRC of these 12 bytes. -/
def wireWritepacketGetbuf (ID len : ℕ) : List UInt8 :=
  let hdr := beEnc 8 ID ++ beEnc 4 len
  hdr ++ List.ofFn (crc hdr)

/-- `wire_writepacket_done(W, wbuf, len)` after the `len` data bytes `buf` follow the header:
the trailer is the data CRC xor the header CRC, read at `wbuf[-4]`. -/
def wireWritepacketDone (header buf : List UInt8) : List UInt8 :=
  header ++ buf ++ List.ofFn fun i => crc buf i ^^^ bytesAt header 12 i

/-- `wire_writepacket(W, packet)`: the bytes written for the packet `(ID, buf)`. -/
def wireWritepacket (ID : ℕ) (buf : List UInt8) : List UInt8 :=
  wireWritepacketDone crc (wireWritepacketGetbuf crc ID buf.length) buf

/-- `wire_readpacket_peek(R, P)` on the bytes `data` the reader has buffered. -/
def wireReadpacketPeek (data : List UInt8) : PeekResult :=
  if data.length < 20 then .nopacket
  else if bytesAt data 12 ≠ crc (data.take 12) then .failed (some "Incorrect CRC on packet header")
  else
    let ID := beDec (data.take 8)
    let len := beDec ((data.drop 8).take 4)
    -- "Make sure the length is reasonable."
    if len > 2 ^ 64 - 1 - 20 then .failed none
    else if data.length < len + 20 then .nopacket
    else
      let d := (data.drop 16).take len
      if bytesAt data 12 ≠ fun i => crc d i ^^^ bytesAt data (16 + len) i then
        .failed (some "Incorrect CRC on packet data")
      else .packet ID d

/-- `wire_readpacket_consume(R, P)`: the buffered bytes after the packet of `len` data bytes. -/
def wireReadpacketConsume (data : List UInt8) (len : ℕ) : List UInt8 := data.drop (len + 20)

/-- The bytes on the connection after `wire_writepacket` for each packet in turn. -/
def writtenStream (ps : List (ℕ × List UInt8)) : List UInt8 :=
  (ps.map fun p => wireWritepacket crc p.1 p.2).flatten

/-- The 12 bytes the header CRC covers. -/
theorem length_hdr (ID len : ℕ) : (beEnc 8 ID ++ beEnc 4 len).length = 12 := by simp

theorem length_wireWritepacketGetbuf (ID len : ℕ) :
    (wireWritepacketGetbuf crc ID len).length = 16 := by
  simp [wireWritepacketGetbuf]

/-- What the reader sees of a header `wire_writepacket_getbuf` wrote, whatever follows it. -/
theorem getbuf_fields (ID len : ℕ) (tail : List UInt8) :
    let data := wireWritepacketGetbuf crc ID len ++ tail
    data.take 12 = beEnc 8 ID ++ beEnc 4 len ∧
      bytesAt data 12 = crc (beEnc 8 ID ++ beEnc 4 len) ∧
      beDec (data.take 8) = ID % 2 ^ 64 ∧ beDec ((data.drop 8).take 4) = len % 2 ^ 32 ∧
      data.drop 16 = tail := by
  have h12 := length_hdr ID len
  refine ⟨?_, ?_, ?_, ?_, ?_⟩
  · simp only [wireWritepacketGetbuf, List.append_assoc]
    exact List.take_left' h12
  · have := bytesAt_append_ofFn (beEnc 8 ID ++ beEnc 4 len) (crc (beEnc 8 ID ++ beEnc 4 len)) tail
    rwa [h12] at this
  · simp only [wireWritepacketGetbuf, List.append_assoc, beDec_take_beEnc_append]
    norm_num
  · simp only [wireWritepacketGetbuf, List.append_assoc, List.drop_left' (length_beEnc 8 ID),
      beDec_take_beEnc_append]
    norm_num
  · exact List.drop_left' (length_wireWritepacketGetbuf crc ID len)

/-- The trailer `wire_writepacket_done` writes after a header from `wire_writepacket_getbuf`. -/
theorem wireWritepacket_eq (ID : ℕ) (buf : List UInt8) :
    wireWritepacket crc ID buf = wireWritepacketGetbuf crc ID buf.length ++
      (buf ++ List.ofFn fun i => crc buf i ^^^ crc (beEnc 8 ID ++ beEnc 4 buf.length) i) := by
  have h := (getbuf_fields crc ID buf.length []).2.1
  rw [List.append_nil] at h
  rw [wireWritepacket, wireWritepacketDone, h, List.append_assoc]

@[simp] theorem length_wireWritepacket (ID : ℕ) (buf : List UInt8) :
    (wireWritepacket crc ID buf).length = buf.length + 20 := by
  rw [wireWritepacket_eq]
  simp [length_wireWritepacketGetbuf]
  omega

/-- The four bytes at an offset into what follows a prefix. -/
theorem bytesAt_append_length (l tail : List UInt8) (off : ℕ) :
    bytesAt (l ++ tail) (l.length + off) = bytesAt tail off := by
  funext i
  simp only [bytesAt, List.getD_eq_getElem?_getD, Nat.add_assoc,
    List.getElem?_append_right (Nat.le_add_right _ _), Nat.add_sub_cancel_left]

/-- `wire_readpacket_peek` on a header `wire_writepacket_getbuf` wrote, followed by `tail`: no
packet until the data and trailer are all there, then the packet if the trailer matches. -/
theorem wireReadpacketPeek_getbuf {ID len : ℕ} (hID : ID < 2 ^ 64) (hlen : len < 2 ^ 32)
    (tail : List UInt8) :
    wireReadpacketPeek crc (wireWritepacketGetbuf crc ID len ++ tail) =
      if tail.length < len + 4 then .nopacket
      else if crc (beEnc 8 ID ++ beEnc 4 len) ≠
          (fun i => crc (tail.take len) i ^^^ bytesAt tail len i) then
        .failed (some "Incorrect CRC on packet data")
      else .packet ID (tail.take len) := by
  obtain ⟨h12, hcrc, hid, hl, hdrop⟩ := getbuf_fields crc ID len tail
  have hsize : (wireWritepacketGetbuf crc ID len ++ tail).length = 16 + tail.length := by
    rw [List.length_append, length_wireWritepacketGetbuf]
  have htrail : bytesAt (wireWritepacketGetbuf crc ID len ++ tail) (16 + len) =
      bytesAt tail len := by
    rw [← length_wireWritepacketGetbuf crc ID len, bytesAt_append_length]
  rw [wireReadpacketPeek, h12, hcrc, hid, hl, Nat.mod_eq_of_lt hID, Nat.mod_eq_of_lt hlen]
  simp only [hdrop, htrail, hsize, ne_eq, not_true_eq_false, if_false]
  -- a data length below `2 ^ 32` is never unreasonable
  have hreasonable : ¬ len > 2 ^ 64 - 1 - 20 := by omega
  by_cases hshort : tail.length < len + 4
  · have hincomplete : 16 + tail.length < len + 20 := by omega
    simp only [hreasonable, hincomplete, hshort, if_true, if_false, ite_self]
  · have hcomplete : ¬ 16 + tail.length < len + 20 := by omega
    have h20 : ¬ 16 + tail.length < 20 := by omega
    simp only [hreasonable, hcomplete, hshort, h20, if_false]

/-- The trailer of a packet undoes the header CRC it was xored with. -/
theorem xor_trailer (c h : Fin 4 → UInt8) : (fun i => c i ^^^ (c i ^^^ h i)) = h := by
  funext i
  rw [← UInt8.xor_assoc, UInt8.xor_self, UInt8.zero_xor]

/-- A packet the writer wrote is found whole, whatever follows it. -/
theorem wireReadpacketPeek_append {ID : ℕ} {buf : List UInt8} (hID : ID < 2 ^ 64)
    (hlen : buf.length < 2 ^ 32) (rest : List UInt8) :
    wireReadpacketPeek crc (wireWritepacket crc ID buf ++ rest) = .packet ID buf := by
  have htake : ∀ t : Fin 4 → UInt8, (buf ++ List.ofFn t ++ rest).take buf.length = buf :=
    fun _ => by rw [List.append_assoc]; exact List.take_left' rfl
  rw [wireWritepacket_eq, List.append_assoc, wireReadpacketPeek_getbuf crc hID hlen, htake,
    bytesAt_append_ofFn, xor_trailer]
  simp

/-- Before the whole of the first packet is buffered, there is no packet. -/
theorem wireReadpacketPeek_take {ID : ℕ} {buf : List UInt8} (hID : ID < 2 ^ 64)
    (hlen : buf.length < 2 ^ 32) (rest : List UInt8) {k : ℕ} (hk : k < buf.length + 20) :
    wireReadpacketPeek crc ((wireWritepacket crc ID buf ++ rest).take k) = .nopacket := by
  by_cases h16 : k < 16
  · -- not even a header
    have hshort : ((wireWritepacket crc ID buf ++ rest).take k).length < 20 := by
      rw [List.length_take]
      omega
    rw [wireReadpacketPeek, if_pos hshort]
  · rw [wireWritepacket_eq, List.append_assoc, List.take_append,
      List.take_of_length_le (by rw [length_wireWritepacketGetbuf]; omega),
      length_wireWritepacketGetbuf, wireReadpacketPeek_getbuf crc hID hlen,
      if_pos (by rw [List.length_take]; omega)]

/-- Consuming the first packet leaves what followed it. -/
theorem wireReadpacketConsume_append (ID : ℕ) (buf rest : List UInt8) :
    wireReadpacketConsume (wireWritepacket crc ID buf ++ rest) buf.length = rest :=
  List.drop_left' (length_wireWritepacket crc ID buf)

/-- A frame whose header CRC does not match is an error once 20 bytes are buffered. -/
theorem wireReadpacketPeek_badHeader {data : List UInt8} (h20 : 20 ≤ data.length)
    (h : bytesAt data 12 ≠ crc (data.take 12)) :
    wireReadpacketPeek crc data = .failed (some "Incorrect CRC on packet header") := by
  rw [wireReadpacketPeek, if_neg (by omega), if_pos h]

/-- A complete frame whose trailer is not the data CRC xor the header CRC is an error: the reader
compares the header CRC with the data CRC xor the trailer, which is the same test. -/
theorem wireReadpacketPeek_badTrailer {data : List UInt8} (h20 : 20 ≤ data.length)
    (hhdr : bytesAt data 12 = crc (data.take 12))
    (hcomplete : beDec ((data.drop 8).take 4) + 20 ≤ data.length)
    (htrail : bytesAt data (16 + beDec ((data.drop 8).take 4)) ≠
      fun i => crc ((data.drop 16).take (beDec ((data.drop 8).take 4))) i ^^^ bytesAt data 12 i) :
    wireReadpacketPeek crc data = .failed (some "Incorrect CRC on packet data") := by
  have hlen4 : ((data.drop 8).take 4).length ≤ 4 := List.length_take_le _ _
  have hlt := beDec_lt ((data.drop 8).take 4)
  have hreasonable : ¬ beDec ((data.drop 8).take 4) > 2 ^ 64 - 1 - 20 := by
    have : 256 ^ ((data.drop 8).take 4).length ≤ 256 ^ 4 := Nat.pow_le_pow_right (by norm_num) hlen4
    omega
  -- the header CRC equals the data CRC xor the trailer only if the trailer is their xor
  have hne : bytesAt data 12 ≠ fun i => crc ((data.drop 16).take (beDec ((data.drop 8).take 4))) i ^^^
      bytesAt data (16 + beDec ((data.drop 8).take 4)) i := by
    intro heq
    apply htrail
    rw [heq, xor_trailer]
  have hfull : ¬ data.length < beDec ((data.drop 8).take 4) + 20 := by omega
  rw [wireReadpacketPeek, if_neg (by omega), if_neg (by simpa using hhdr)]
  simp only [hreasonable, if_false, hfull, hne, ne_eq, not_false_eq_true, if_true]

/-- The four bytes at `off` are the list's bytes there. -/
theorem take_drop_eq_ofFn {data : List UInt8} {off : ℕ} (h : off + 4 ≤ data.length) :
    (data.drop off).take 4 = List.ofFn (bytesAt data off) := by
  apply List.ext_getElem
  · simp only [List.length_take, List.length_drop, List.length_ofFn]
    omega
  · intro i h₁ h₂
    rw [List.getElem_ofFn, List.getElem_take, List.getElem_drop]
    simp only [bytesAt, List.getD_eq_getElem?_getD]
    rw [List.getElem?_eq_getElem (by simp only [List.length_ofFn] at h₂; omega)]
    rfl

/-- What the reader accepts is a packet as the writer writes it, followed by the rest of the
buffered bytes: its ID fits 64 bits and its length 32 bits. -/
theorem eq_wireWritepacket_of_peek {data : List UInt8} {ID : ℕ} {buf : List UInt8}
    (h : wireReadpacketPeek crc data = .packet ID buf) :
    ID < 2 ^ 64 ∧ buf.length < 2 ^ 32 ∧
      data = wireWritepacket crc ID buf ++ data.drop (buf.length + 20) := by
  unfold wireReadpacketPeek at h
  simp only at h
  split_ifs at h with h20 hhdr hbig hshort hdata
  simp only [ne_eq, Decidable.not_not] at hhdr hdata
  injection h with hID hbuf
  subst hID hbuf
  set len := beDec ((data.drop 8).take 4) with hlenDef
  have hlen : ((data.drop 16).take len).length = len := by
    rw [List.length_take, List.length_drop]
    omega
  have h8 : beEnc 8 (beDec (data.take 8)) = data.take 8 := by
    have := beEnc_beDec (data.take 8)
    rwa [List.length_take_of_le (by omega)] at this
  have h4 : beEnc 4 len = (data.drop 8).take 4 := by
    have := beEnc_beDec ((data.drop 8).take 4)
    rwa [List.length_take_of_le (by rw [List.length_drop]; omega)] at this
  refine ⟨?_, ?_, ?_⟩
  · have := beDec_lt (data.take 8)
    rwa [List.length_take_of_le (by omega)] at this
  · have := beDec_lt ((data.drop 8).take 4)
    rw [List.length_take_of_le (by rw [List.length_drop]; omega)] at this
    rw [hlen]
    exact this
  -- the header is the first 12 bytes, its CRC the next 4, then the data and the trailer
  have hhdr' : beEnc 8 (beDec (data.take 8)) ++ beEnc 4 len = data.take 12 := by
    rw [h8, h4, ← List.take_add]
  have htrail : (fun i => crc ((data.drop 16).take len) i ^^^ crc (data.take 12) i) =
      bytesAt data (16 + len) := by
    rw [← hhdr, hdata, xor_trailer]
  -- the buffer is its consecutive pieces: header, header CRC, data, trailer and the rest
  have hsplit : data.take 12 ++ (data.drop 12).take 4 ++
      ((data.drop 16).take len ++ (data.drop (16 + len)).take 4) ++ data.drop (len + 20) = data := by
    rw [← List.take_add, ← List.drop_drop, ← List.take_add,
      show len + 20 = 16 + (len + 4) by omega, ← List.drop_drop, List.append_assoc,
      List.take_append_drop, List.take_append_drop]
  rw [wireWritepacket_eq, wireWritepacketGetbuf]
  simp only [hlen, hhdr', htrail]
  rw [← hhdr, ← take_drop_eq_ofFn (by omega), ← take_drop_eq_ofFn (by omega), hsplit]

@[simp] theorem writtenStream_nil : writtenStream crc [] = [] := rfl

theorem writtenStream_cons (ID : ℕ) (buf : List UInt8) (ps : List (ℕ × List UInt8)) :
    writtenStream crc ((ID, buf) :: ps) = wireWritepacket crc ID buf ++ writtenStream crc ps := rfl

/-- At every cut of the stream, the first packet is found exactly once it is all there, and
consuming it leaves the cut of the rest of the stream. -/
theorem wireReadpacketPeek_cut {ID : ℕ} {buf : List UInt8} (hID : ID < 2 ^ 64)
    (hlen : buf.length < 2 ^ 32) (ps : List (ℕ × List UInt8)) {k : ℕ}
    (hk : buf.length + 20 ≤ k) :
    wireReadpacketPeek crc ((writtenStream crc ((ID, buf) :: ps)).take k) = .packet ID buf ∧
      wireReadpacketConsume ((writtenStream crc ((ID, buf) :: ps)).take k) buf.length =
        (writtenStream crc ps).take (k - (buf.length + 20)) := by
  have hcut : (writtenStream crc ((ID, buf) :: ps)).take k =
      wireWritepacket crc ID buf ++ (writtenStream crc ps).take (k - (buf.length + 20)) := by
    rw [writtenStream_cons, List.take_append, List.take_of_length_le (by simp; omega),
      length_wireWritepacket]
  rw [hcut]
  exact ⟨wireReadpacketPeek_append crc hID hlen _, wireReadpacketConsume_append crc ID buf _⟩

/-- Packets written one after the other are read back at every cut of the stream, and a frame
with a bad header CRC or a bad trailer is rejected. -/
theorem wire_framingRoundTrip :
    (∀ k, wireReadpacketPeek crc ((writtenStream crc []).take k) = .nopacket) ∧
    (∀ (ID : ℕ) (buf : List UInt8) (ps : List (ℕ × List UInt8)) (k : ℕ),
      ID < 2 ^ 64 → buf.length ≤ 2 ^ 32 - 1 - 20 →
      (k < buf.length + 20 →
        wireReadpacketPeek crc ((writtenStream crc ((ID, buf) :: ps)).take k) = .nopacket) ∧
      (buf.length + 20 ≤ k →
        wireReadpacketPeek crc ((writtenStream crc ((ID, buf) :: ps)).take k) = .packet ID buf ∧
          wireReadpacketConsume ((writtenStream crc ((ID, buf) :: ps)).take k) buf.length =
            (writtenStream crc ps).take (k - (buf.length + 20)))) ∧
    (∀ data : List UInt8, 20 ≤ data.length → bytesAt data 12 ≠ crc (data.take 12) →
      wireReadpacketPeek crc data = .failed (some "Incorrect CRC on packet header")) ∧
    (∀ data : List UInt8, 20 ≤ data.length → bytesAt data 12 = crc (data.take 12) →
      beDec ((data.drop 8).take 4) + 20 ≤ data.length →
      bytesAt data (16 + beDec ((data.drop 8).take 4)) ≠
        (fun i => crc ((data.drop 16).take (beDec ((data.drop 8).take 4))) i ^^^ bytesAt data 12 i) →
      wireReadpacketPeek crc data = .failed (some "Incorrect CRC on packet data")) := by
  refine ⟨fun k => ?_, fun ID buf ps k hID hlen => ⟨fun hk => ?_, fun hk => ?_⟩,
    fun _ h20 h => wireReadpacketPeek_badHeader crc h20 h,
    fun _ h20 hhdr hcomplete htrail => wireReadpacketPeek_badTrailer crc h20 hhdr hcomplete htrail⟩
  · simp [wireReadpacketPeek]
  · rw [writtenStream_cons]
    exact wireReadpacketPeek_take crc hID (by omega) _ hk
  · exact wireReadpacketPeek_cut crc hID (by omega) ps hk

end

/-- A checksum for the witness below: the sum of the bytes, in each of the four bytes. -/
def byteSumCrc (data : List UInt8) (_ : Fin 4) : UInt8 := data.foldl (· + ·) 0

/-- Two packets written one after the other: cut inside the first header nothing is read, cut
two bytes into the second packet the first is read and consuming it leaves those two bytes, and
a stream whose first byte is changed fails the header CRC. -/
theorem wire_framingRoundTrip_twoPackets :
    wireReadpacketPeek byteSumCrc
        ((writtenStream byteSumCrc [(7, [1, 2, 3]), (8, [4, 5])]).take 10) = .nopacket ∧
      wireReadpacketPeek byteSumCrc
        ((writtenStream byteSumCrc [(7, [1, 2, 3]), (8, [4, 5])]).take 25) = .packet 7 [1, 2, 3] ∧
      wireReadpacketConsume ((writtenStream byteSumCrc [(7, [1, 2, 3]), (8, [4, 5])]).take 25) 3 =
        (writtenStream byteSumCrc [(8, [4, 5])]).take 2 ∧
      wireReadpacketPeek byteSumCrc ((writtenStream byteSumCrc [(7, [1, 2, 3])]).set 0 1) =
        .failed (some "Incorrect CRC on packet header") := by
  obtain ⟨-, hcut, hbad, -⟩ := wire_framingRoundTrip byteSumCrc
  have hfirst := hcut 7 [1, 2, 3] [(8, [4, 5])]
  exact ⟨(hfirst 10 (by norm_num) (by norm_num)).1 (by norm_num),
    ((hfirst 25 (by norm_num) (by norm_num)).2 (by norm_num)).1,
    ((hfirst 25 (by norm_num) (by norm_num)).2 (by norm_num)).2,
    hbad _ (by decide) (by decide)⟩

end Kivaloo.Wire
