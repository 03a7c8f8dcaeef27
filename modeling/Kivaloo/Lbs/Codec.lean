import Mathlib
import Kivaloo.Lib.BigEndian

/-!
# The LBS wire protocol (lib/proto_lbs)

An LBS request record is a 32-bit type followed by the fields of its type: a 64-bit block number
for GET and FREE, and for APPEND the 32-bit block count, the 64-bit first block number and the
blocks one after the other.  The block length of an APPEND is not sent: the server infers it by
dividing the data length by the block count (`protoLbsRequestParse`).  Responses carry a 32-bit
status or block length and the fields of their type; the client's callbacks check the lengths
and pass the fields up.

Every request the client builds parses back as itself, the APPEND block length included, as long
as the record fits the 32-bit length of a wire packet (`protoLbsRequestParse_append`); kvlds keeps
its APPENDs within that bound (`append_fits_of_le_mrConcurrency`).  Every response the server
writes is accepted by the client with the same fields, and a GET response whose data is not the
requested block length is a failure (`callbackGet_failed_of_length_ne`).
-/

namespace Kivaloo.Lbs

open Kivaloo.Lib

/-! ## Requests -/

/-- `struct proto_lbs_request` without its ID: the type and the fields of the type. -/
inductive ProtoLbsRequest
  | params
  | params2
  | get (blkno : ℕ)
  | append (nblks blklen blkno : ℕ) (buf : List UInt8)
  | free (blkno : ℕ)
  deriving DecidableEq, Repr

/-- `proto_lbs_request_parse(P, R)` of the packet data `P` (at most `UINT32_MAX` bytes, which the
wire layer asserts). -/
def protoLbsRequestParse (P : List UInt8) : Option ProtoLbsRequest :=
  if P.length < 4 then none
  else
    match beDec (P.take 4) with
    | 0 => if P.length ≠ 4 then none else some .params
    | 4 => if P.length ≠ 4 then none else some .params2
    | 1 => if P.length ≠ 12 then none else some (.get (beDec ((P.drop 4).take 8)))
    | 2 =>
      if P.length < 16 then none
      else
        let nblks := beDec ((P.drop 4).take 4)
        let blkno := beDec ((P.drop 8).take 8)
        if nblks = 0 then none
        else if (P.length - 16) % nblks ≠ 0 then none
        else some (.append nblks ((P.length - 16) / nblks % 2 ^ 32) blkno (P.drop 16))
    | 3 => if P.length ≠ 12 then none else some (.free (beDec ((P.drop 4).take 8)))
    | _ => none

/-- `proto_lbs_request_params`: the record it sends. -/
def protoLbsRequestParams : List UInt8 := beEnc 4 0

/-- `proto_lbs_request_params2`. -/
def protoLbsRequestParams2 : List UInt8 := beEnc 4 4

/-- `proto_lbs_request_get(Q, blkno, blklen, ...)`; the block length stays with the client. -/
def protoLbsRequestGet (blkno : ℕ) : List UInt8 := beEnc 4 1 ++ beEnc 8 blkno

/-- `proto_lbs_request_append_blks(Q, nblks, blkno, blklen, bufv, ...)`: `blklen` bytes from each
of the first `nblks` blocks of `bufv`, after the 16-byte header. -/
def protoLbsRequestAppendBlks (nblks blkno blklen : ℕ) (bufv : List (List UInt8)) :
    List UInt8 :=
  beEnc 4 2 ++ beEnc 4 nblks ++ beEnc 8 blkno ++ ((bufv.take nblks).map (List.take blklen)).flatten

/-- `proto_lbs_request_append(Q, nblks, blkno, blklen, buf, ...)`: block `i` starts at byte
`i * blklen` of `buf`. -/
def protoLbsRequestAppend (nblks blkno blklen : ℕ) (buf : List UInt8) : List UInt8 :=
  protoLbsRequestAppendBlks nblks blkno blklen
    ((List.range nblks).map fun i => buf.drop (i * blklen))

/-- `proto_lbs_request_free(Q, blkno, ...)`. -/
def protoLbsRequestFree (blkno : ℕ) : List UInt8 := beEnc 4 3 ++ beEnc 8 blkno

/-- The bound `dispatch_accept` puts on the number of pages one batch of multi-request writes
may touch: a quarter of the pool, and no more than keeps an APPEND record within `UINT32_MAX`
bytes and its packet within `SIZE_MAX`. -/
def mrConcurrency (poolsz pagelen : ℕ) : ℕ :=
  let c := poolsz / 4
  let c := if c > (2 ^ 32 - 1 - 16) / pagelen then (2 ^ 32 - 1 - 16) / pagelen else c
  if c > (2 ^ 64 - 1 - 16 - 20) / pagelen then (2 ^ 64 - 1 - 16 - 20) / pagelen else c

/-! ## Responses -/

/-- `proto_lbs_response_params(Q, ID, blklen, blkno)`: the packet data. -/
def protoLbsResponseParams (blklen blkno : ℕ) : List UInt8 := beEnc 4 blklen ++ beEnc 8 blkno

/-- `proto_lbs_response_params2(Q, ID, blklen, blkno, lastblk)`. -/
def protoLbsResponseParams2 (blklen blkno lastblk : ℕ) : List UInt8 :=
  beEnc 4 blklen ++ beEnc 8 blkno ++ beEnc 8 lastblk

/-- `proto_lbs_response_get(Q, ID, status, blklen, buf)` with the block `buf`.  The length
`4 + ((status == 0) ? blklen : 0)` is computed in 32 bits; where it wraps, the copy goes past the
buffer, which is undefined (`none`). -/
def protoLbsResponseGet (status : ℕ) (buf : List UInt8) : Option (List UInt8) :=
  let len := if status = 0 then (4 + buf.length) % 2 ^ 32 else 4
  let data := beEnc 4 status ++ if status = 0 then buf else []
  if data.length = len then some data else none

/-- `proto_lbs_response_append(Q, ID, status, blkno)`. -/
def protoLbsResponseAppend (status blkno : ℕ) : List UInt8 :=
  beEnc 4 status ++ if status = 0 then beEnc 8 blkno else []

/-- `proto_lbs_response_free(Q, ID)`. -/
def protoLbsResponseFree : List UInt8 := beEnc 4 0

/-! ## Reading responses (proto_lbs_client.c) -/

/-- What `callback_params` passes up, and the warning it prints. -/
structure ParamsReply where
  failed : ℕ
  blklen : ℕ
  blkno : ℕ
  warning : Option String
  deriving DecidableEq, Repr

/-- `callback_params(cookie, buf, buflen)`; `none` is a request that got no response. -/
def callbackParams : Option (List UInt8) → ParamsReply
  | none => ⟨1, 0, 0, none⟩
  | some buf =>
    if buf.length ≠ 12 then ⟨1, 0, 0, some "Received PARAMS response with bogus length"⟩
    else ⟨0, beDec (buf.take 4), beDec ((buf.drop 4).take 8), none⟩

/-- What `callback_params2` passes up; `lastblk` is `(uint64_t)(-1)` unless read. -/
structure Params2Reply where
  failed : ℕ
  blklen : ℕ
  blkno : ℕ
  lastblk : ℕ
  warning : Option String
  deriving DecidableEq, Repr

/-- `callback_params2(cookie, buf, buflen)`. -/
def callbackParams2 : Option (List UInt8) → Params2Reply
  | none => ⟨1, 0, 0, 2 ^ 64 - 1, none⟩
  | some buf =>
    if buf.length ≠ 20 then
      ⟨1, 0, 0, 2 ^ 64 - 1, some "Received PARAMS2 response with bogus length"⟩
    else ⟨0, beDec (buf.take 4), beDec ((buf.drop 4).take 8), beDec ((buf.drop 12).take 8), none⟩

/-- What `callback_get` passes up: `failed`, `status` and the block (`blk`, from offset 4). -/
structure GetReply where
  failed : ℕ
  status : ℕ
  blk : Option (List UInt8)
  warning : Option String
  deriving DecidableEq, Repr

/-- `callback_get(cookie, buf, buflen)` for a GET of `blklen` bytes.  The status is read before
the length checks, so a response of the wrong length is passed up as failed with its status. -/
def callbackGet (blklen : ℕ) : Option (List UInt8) → GetReply
  | none => ⟨1, 0, none, none⟩
  | some buf =>
    if buf.length < 4 then ⟨1, 0, none, some "Received GET response with bogus length"⟩
    else if beDec (buf.take 4) > 1 then
      ⟨1, 0, none, some "Received GET response with bogus status code"⟩
    else
      let status := beDec (buf.take 4)
      if status = 0 ∧ buf.length ≠ 4 + blklen then
        ⟨1, status, none, some "Received GET response with wrong length for status"⟩
      else if status = 1 ∧ buf.length ≠ 4 then
        ⟨1, status, none, some "Received GET response with wrong length for status"⟩
      else ⟨0, status, if status = 0 then some (buf.drop 4) else none, none⟩

/-- What `callback_append` passes up. -/
structure AppendReply where
  failed : ℕ
  status : ℕ
  blkno : ℕ
  warning : Option String
  deriving DecidableEq, Repr

/-- `callback_append(cookie, buf, buflen)`. -/
def callbackAppend : Option (List UInt8) → AppendReply
  | none => ⟨1, 0, 0, none⟩
  | some buf =>
    if buf.length < 4 then ⟨1, 0, 0, some "Received APPEND response with bogus length"⟩
    else if beDec (buf.take 4) > 1 then
      ⟨1, 0, 0, some "Received APPEND response with bogus status code"⟩
    else
      let status := beDec (buf.take 4)
      if status = 0 ∧ buf.length ≠ 12 then
        ⟨1, status, 0, some "Received APPEND response with wrong length for status"⟩
      else if status = 1 ∧ buf.length ≠ 4 then
        ⟨1, status, 0, some "Received APPEND response with wrong length for status"⟩
      else ⟨0, status, if status = 0 then beDec ((buf.drop 4).take 8) else 0, none⟩

/-- `callback_free(cookie, buf, buflen)`: the `failed` it passes up and the warning it prints. -/
def callbackFree : Option (List UInt8) → ℕ × Option String
  | none => (1, none)
  | some buf =>
    if buf.length < 4 then (1, some "Received FREE response with bogus length")
    else if beDec (buf.take 4) > 0 then (1, some "Received FREE response with bogus status code")
    else (0, none)

/-! ## Records read back -/

/-- The data of `proto_lbs_request_append` is the first `nblks * blklen` bytes of its buffer. -/
theorem flatten_take_drop (buf : List UInt8) (k : ℕ) :
    ∀ n, ((List.range n).map fun i => (buf.drop (i * k)).take k).flatten = buf.take (n * k) := by
  intro n
  induction n with
  | zero => simp
  | succ n ih =>
    rw [List.range_succ, List.map_append, List.flatten_append, ih, List.map_singleton,
      List.flatten_singleton, Nat.succ_mul, List.take_add]

theorem protoLbsRequestAppend_eq (nblks blkno blklen : ℕ) (buf : List UInt8) :
    protoLbsRequestAppend nblks blkno blklen buf =
      beEnc 4 2 ++ beEnc 4 nblks ++ beEnc 8 blkno ++ buf.take (nblks * blklen) := by
  rw [protoLbsRequestAppend, protoLbsRequestAppendBlks, List.take_of_length_le (by simp),
    List.map_map]
  exact congrArg _ (flatten_take_drop buf blklen nblks)

theorem protoLbsRequestParse_params : protoLbsRequestParse protoLbsRequestParams = some .params := by
  simp [protoLbsRequestParse, protoLbsRequestParams]

theorem protoLbsRequestParse_params2 :
    protoLbsRequestParse protoLbsRequestParams2 = some .params2 := by
  simp [protoLbsRequestParse, protoLbsRequestParams2]

/-- The records of GET and FREE: a type and a 64-bit block number. -/
theorem protoLbsRequestParse_blkno {t blkno : ℕ} (ht : t = 1 ∨ t = 3) (h : blkno < 2 ^ 64) :
    protoLbsRequestParse (beEnc 4 t ++ beEnc 8 blkno) =
      some (if t = 1 then .get blkno else .free blkno) := by
  have hlen : (beEnc 4 t ++ beEnc 8 blkno).length = 12 := by simp
  have htype : beDec ((beEnc 4 t ++ beEnc 8 blkno).take 4) = t := by
    rw [beDec_take_beEnc_append]
    exact Nat.mod_eq_of_lt (by omega)
  have hblkno : beDec (((beEnc 4 t ++ beEnc 8 blkno).drop 4).take 8) = blkno := by
    rw [List.drop_left' (length_beEnc 4 t), beDec_take_beEnc]
    exact Nat.mod_eq_of_lt (by simpa using h)
  rw [protoLbsRequestParse, if_neg (by omega), htype]
  rcases ht with rfl | rfl <;> simp only [hlen, hblkno, ne_eq, not_true_eq_false, if_false] <;> rfl

theorem protoLbsRequestParse_get {blkno : ℕ} (h : blkno < 2 ^ 64) :
    protoLbsRequestParse (protoLbsRequestGet blkno) = some (.get blkno) :=
  protoLbsRequestParse_blkno (.inl rfl) h

theorem protoLbsRequestParse_free {blkno : ℕ} (h : blkno < 2 ^ 64) :
    protoLbsRequestParse (protoLbsRequestFree blkno) = some (.free blkno) :=
  protoLbsRequestParse_blkno (.inr rfl) h

/-- An APPEND record parses back with its block count, first block, data, and the block length
the server infers from them, while the record fits a wire packet. -/
theorem protoLbsRequestParse_append {nblks blkno blklen : ℕ} {buf : List UInt8}
    (hn : 0 < nblks) (hn32 : nblks < 2 ^ 32) (hblkno : blkno < 2 ^ 64)
    (hbuf : buf.length = nblks * blklen) (hfit : 16 + nblks * blklen ≤ 2 ^ 32 - 1) :
    protoLbsRequestParse (protoLbsRequestAppend nblks blkno blklen buf) =
      some (.append nblks blklen blkno buf) := by
  rw [protoLbsRequestAppend_eq, ← hbuf, List.take_length]
  set P := beEnc 4 2 ++ beEnc 4 nblks ++ beEnc 8 blkno ++ buf with hP
  have hlen : P.length = 16 + buf.length := by
    simp only [hP, List.length_append, length_beEnc]
  have htype : beDec (P.take 4) = 2 := by
    simp only [hP, List.append_assoc, beDec_take_beEnc_append]
    norm_num
  have hnblks : beDec ((P.drop 4).take 4) = nblks := by
    simp only [hP, List.append_assoc, List.drop_left' (length_beEnc 4 2),
      beDec_take_beEnc_append]
    exact Nat.mod_eq_of_lt (by simpa using hn32)
  have hdrop8 : P.drop 8 = beEnc 8 blkno ++ buf := by
    simp only [hP, List.append_assoc]
    rw [← List.append_assoc, List.drop_left' (by simp)]
  have hblkno' : beDec ((P.drop 8).take 8) = blkno := by
    rw [hdrop8, beDec_take_beEnc_append]
    exact Nat.mod_eq_of_lt (by simpa using hblkno)
  have hdata : P.drop 16 = buf := by
    simp only [hP]
    exact List.drop_left' (by simp)
  -- the data is `nblks` blocks of `blklen` bytes, so the division gives back `blklen`
  have hmod : (P.length - 16) % nblks = 0 := by
    rw [hlen, Nat.add_sub_cancel_left, hbuf, Nat.mul_mod_right]
  have hdiv : (P.length - 16) / nblks % 2 ^ 32 = blklen := by
    rw [hlen, Nat.add_sub_cancel_left, hbuf, Nat.mul_div_cancel_left _ hn]
    have : blklen ≤ nblks * blklen := Nat.le_mul_of_pos_left blklen hn
    exact Nat.mod_eq_of_lt (by omega)
  rw [protoLbsRequestParse, if_neg (by omega), htype]
  simp only [if_neg (show ¬ P.length < 16 by omega), hnblks, hblkno', if_neg hn.ne', hmod,
    ne_eq, not_true_eq_false, if_false, hdiv, hdata]

/-- kvlds never touches more pages in one batch than keeps an APPEND of them within the 32-bit
length of a wire packet. -/
theorem append_fits_of_le_mrConcurrency {poolsz pagelen nblks : ℕ}
    (h : nblks ≤ mrConcurrency poolsz pagelen) : 16 + nblks * pagelen ≤ 2 ^ 32 - 1 := by
  have hle : mrConcurrency poolsz pagelen ≤ (2 ^ 32 - 1 - 16) / pagelen := by
    simp only [mrConcurrency]
    split_ifs <;> omega
  have hmul : nblks * pagelen ≤ 2 ^ 32 - 1 - 16 :=
    calc nblks * pagelen ≤ (2 ^ 32 - 1 - 16) / pagelen * pagelen :=
          Nat.mul_le_mul_right _ (h.trans hle)
      _ ≤ 2 ^ 32 - 1 - 16 := Nat.div_mul_le_self _ _
  omega

/-! ## Responses read back -/

theorem callbackParams_responseParams {blklen blkno : ℕ} (hlen : blklen < 2 ^ 32)
    (hno : blkno < 2 ^ 64) :
    callbackParams (some (protoLbsResponseParams blklen blkno)) = ⟨0, blklen, blkno, none⟩ := by
  have hsize : (protoLbsResponseParams blklen blkno).length = 12 := by
    simp [protoLbsResponseParams]
  have hblklen : beDec ((protoLbsResponseParams blklen blkno).take 4) = blklen := by
    rw [protoLbsResponseParams, beDec_take_beEnc_append]
    exact Nat.mod_eq_of_lt (by simpa using hlen)
  have hblkno : beDec (((protoLbsResponseParams blklen blkno).drop 4).take 8) = blkno := by
    rw [protoLbsResponseParams, List.drop_left' (length_beEnc 4 blklen), beDec_take_beEnc]
    exact Nat.mod_eq_of_lt (by simpa using hno)
  simp only [callbackParams, hsize, hblklen, hblkno, ne_eq, not_true_eq_false, if_false]

theorem callbackParams2_responseParams2 {blklen blkno lastblk : ℕ} (hlen : blklen < 2 ^ 32)
    (hno : blkno < 2 ^ 64) (hlast : lastblk < 2 ^ 64) :
    callbackParams2 (some (protoLbsResponseParams2 blklen blkno lastblk)) =
      ⟨0, blklen, blkno, lastblk, none⟩ := by
  have hsize : (protoLbsResponseParams2 blklen blkno lastblk).length = 20 := by
    simp [protoLbsResponseParams2]
  have hdrop : (protoLbsResponseParams2 blklen blkno lastblk).drop 12 = beEnc 8 lastblk := by
    simp only [protoLbsResponseParams2]
    exact List.drop_left' (by simp)
  simp only [callbackParams2, hsize, ne_eq, not_true_eq_false, if_false, hdrop, beDec_take_beEnc]
  simp only [protoLbsResponseParams2, List.append_assoc, beDec_take_beEnc_append,
    List.drop_left' (length_beEnc 4 blklen)]
  rw [Nat.mod_eq_of_lt (by simpa using hlen), Nat.mod_eq_of_lt (by simpa using hno),
    Nat.mod_eq_of_lt (by simpa using hlast)]

/-- A GET response with status 0 carries the block. -/
theorem protoLbsResponseGet_zero {buf : List UInt8} (h : buf.length < 2 ^ 32 - 4) :
    protoLbsResponseGet 0 buf = some (beEnc 4 0 ++ buf) := by
  have hlen : (beEnc 4 0 ++ buf).length = (4 + buf.length) % 2 ^ 32 := by
    rw [Nat.mod_eq_of_lt (by omega)]
    simp
  simp only [protoLbsResponseGet, if_true, hlen]

theorem protoLbsResponseGet_one (buf : List UInt8) :
    protoLbsResponseGet 1 buf = some (beEnc 4 1) := by
  simp [protoLbsResponseGet]

/-- The client accepts a block of the length it asked for and passes it up. -/
theorem callbackGet_zero (buf : List UInt8) :
    callbackGet buf.length (some (beEnc 4 0 ++ buf)) = ⟨0, 0, some buf, none⟩ := by
  have hlen : (beEnc 4 0 ++ buf).length = 4 + buf.length := by simp
  have hstatus : beDec ((beEnc 4 0 ++ buf).take 4) = 0 := by simp
  have h4 : ¬ 4 + buf.length < 4 := by omega
  simp only [callbackGet, hlen, hstatus, h4, if_false, ne_eq, not_true_eq_false, and_false,
    zero_ne_one, false_and, if_true, List.drop_left' (length_beEnc 4 0)]
  simp

theorem callbackGet_one (blklen : ℕ) :
    callbackGet blklen (some (beEnc 4 1)) = ⟨0, 1, none, none⟩ := by
  have hstatus : beDec ((beEnc 4 1).take 4) = 1 := by simp
  simp only [callbackGet, length_beEnc, hstatus]
  simp

/-- A GET response with status 0 is a failure unless its data is the block length asked for. -/
theorem callbackGet_failed_of_length_ne {blklen : ℕ} {buf : List UInt8} (h4 : 4 ≤ buf.length)
    (h0 : beDec (buf.take 4) = 0) (hne : buf.length ≠ 4 + blklen) :
    (callbackGet blklen (some buf)).failed = 1 := by
  have h4' : ¬ buf.length < 4 := by omega
  simp only [callbackGet, h4', if_false, h0, Nat.not_lt_zero, hne, ne_eq, not_false_eq_true,
    and_self, if_true]

theorem callbackAppend_responseAppend {status blkno : ℕ} (hs : status = 0 ∨ status = 1)
    (hno : blkno < 2 ^ 64) :
    callbackAppend (some (protoLbsResponseAppend status blkno)) =
      ⟨0, status, if status = 0 then blkno else 0, none⟩ := by
  rcases hs with rfl | rfl
  · have hlen : (protoLbsResponseAppend 0 blkno).length = 12 := by simp [protoLbsResponseAppend]
    have hstatus : beDec ((protoLbsResponseAppend 0 blkno).take 4) = 0 := by
      simp [protoLbsResponseAppend]
    have hblkno : beDec (((protoLbsResponseAppend 0 blkno).drop 4).take 8) = blkno := by
      simp only [protoLbsResponseAppend, if_true, List.drop_left' (length_beEnc 4 0),
        beDec_take_beEnc]
      exact Nat.mod_eq_of_lt (by simpa using hno)
    simp only [callbackAppend, hlen, hstatus, hblkno]
    simp
  · have hstatus : beDec ((protoLbsResponseAppend 1 blkno).take 4) = 1 := by
      simp [protoLbsResponseAppend]
    have hlen : (protoLbsResponseAppend 1 blkno).length = 4 := by simp [protoLbsResponseAppend]
    simp only [callbackAppend, hlen, hstatus]
    simp

theorem callbackFree_responseFree : callbackFree (some protoLbsResponseFree) = (0, none) := by
  simp [callbackFree, protoLbsResponseFree]

/-- The client's requests parse back as themselves, and the server's responses read back with
the same fields; a GET response with data of another length than asked for is a failure. -/
theorem protoLbs_codecsAgree :
    protoLbsRequestParse protoLbsRequestParams = some .params ∧
    protoLbsRequestParse protoLbsRequestParams2 = some .params2 ∧
    (∀ blkno, blkno < 2 ^ 64 →
      protoLbsRequestParse (protoLbsRequestGet blkno) = some (.get blkno) ∧
        protoLbsRequestParse (protoLbsRequestFree blkno) = some (.free blkno)) ∧
    (∀ nblks blkno blklen (buf : List UInt8), 0 < nblks → nblks < 2 ^ 32 → blkno < 2 ^ 64 →
      buf.length = nblks * blklen → 16 + nblks * blklen ≤ 2 ^ 32 - 1 →
      protoLbsRequestParse (protoLbsRequestAppend nblks blkno blklen buf) =
        some (.append nblks blklen blkno buf)) ∧
    (∀ blklen blkno, blklen < 2 ^ 32 → blkno < 2 ^ 64 →
      callbackParams (some (protoLbsResponseParams blklen blkno)) = ⟨0, blklen, blkno, none⟩) ∧
    (∀ blklen blkno lastblk, blklen < 2 ^ 32 → blkno < 2 ^ 64 → lastblk < 2 ^ 64 →
      callbackParams2 (some (protoLbsResponseParams2 blklen blkno lastblk)) =
        ⟨0, blklen, blkno, lastblk, none⟩) ∧
    (∀ buf : List UInt8, buf.length < 2 ^ 32 - 4 → ∃ data,
      protoLbsResponseGet 0 buf = some data ∧
        callbackGet buf.length (some data) = ⟨0, 0, some buf, none⟩) ∧
    (∀ blklen (buf : List UInt8), ∃ data,
      protoLbsResponseGet 1 buf = some data ∧ callbackGet blklen (some data) = ⟨0, 1, none, none⟩) ∧
    (∀ status blkno, status = 0 ∨ status = 1 → blkno < 2 ^ 64 →
      callbackAppend (some (protoLbsResponseAppend status blkno)) =
        ⟨0, status, if status = 0 then blkno else 0, none⟩) ∧
    callbackFree (some protoLbsResponseFree) = (0, none) ∧
    (∀ blklen (buf : List UInt8), buf.length < 2 ^ 32 - 4 → buf.length ≠ blklen → ∃ data,
      protoLbsResponseGet 0 buf = some data ∧ (callbackGet blklen (some data)).failed = 1) := by
  refine ⟨protoLbsRequestParse_params, protoLbsRequestParse_params2,
    fun _ h => ⟨protoLbsRequestParse_get h, protoLbsRequestParse_free h⟩,
    fun _ _ _ _ hn hn32 hno hbuf hfit => protoLbsRequestParse_append hn hn32 hno hbuf hfit,
    fun _ _ hlen hno => callbackParams_responseParams hlen hno,
    fun _ _ _ hlen hno hlast => callbackParams2_responseParams2 hlen hno hlast,
    fun buf h => ⟨_, protoLbsResponseGet_zero h, callbackGet_zero buf⟩,
    fun blklen buf => ⟨_, protoLbsResponseGet_one buf, callbackGet_one blklen⟩,
    fun _ _ hs hno => callbackAppend_responseAppend hs hno, callbackFree_responseFree, ?_⟩
  -- the data of another length makes the packet's length disagree with the one asked for
  intro blklen buf h hne
  refine ⟨_, protoLbsResponseGet_zero h, callbackGet_failed_of_length_ne (by simp) (by simp) ?_⟩
  simpa using hne

/-- An APPEND of two 4-byte blocks at block 7 parses back as itself, a GET of block 2^40 too, the
4-byte block read back is passed up, and a 3-byte one is a failure. -/
theorem protoLbs_codecsAgree_twoBlocks :
    protoLbsRequestParse (protoLbsRequestAppend 2 7 4 [1, 2, 3, 4, 5, 6, 7, 8]) =
        some (.append 2 4 7 [1, 2, 3, 4, 5, 6, 7, 8]) ∧
      protoLbsRequestParse (protoLbsRequestGet (2 ^ 40)) = some (.get (2 ^ 40)) ∧
      (∃ data, protoLbsResponseGet 0 [9, 8, 7, 6] = some data ∧
        callbackGet 4 (some data) = ⟨0, 0, some [9, 8, 7, 6], none⟩) ∧
      ∃ data, protoLbsResponseGet 0 [9, 8, 7] = some data ∧ (callbackGet 4 (some data)).failed = 1 := by
  obtain ⟨-, -, hget, happend, -, -, hdata, -, -, -, hshort⟩ := protoLbs_codecsAgree
  exact ⟨happend 2 7 4 _ (by norm_num) (by norm_num) (by norm_num) rfl (by norm_num),
    (hget _ (by norm_num)).1, hdata [9, 8, 7, 6] (by norm_num),
    hshort 4 [9, 8, 7] (by norm_num) (by norm_num)⟩

end Kivaloo.Lbs
