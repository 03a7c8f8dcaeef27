import Mathlib
import Kivaloo.Kvlds.Serialize
import Kivaloo.Kvlds.RangeSpec

/-!
# The KVLDS wire protocol (lib/proto_kvlds)

A KVLDS request record is the 32-bit type followed by the keys of its type, each as a length
byte and its bytes (`kvldskey_serialize`): a key for DELETE and GET, a key and a value for SET,
ADD and MODIFY, a key and an old value for CAD, all three for CAS, and for RANGE the 32-bit
`range_max` and then the start and end keys.  The server parses the record into
`struct proto_kvlds_request` (`protoKvldsRequestParse`), taking each key with `GRABKEY`, which
reads a key as `deserialize` does (`parseKey`).  Responses carry a 32-bit status, the value of a
GET, or for RANGE the number of pairs, the next key and the pairs; the client's callbacks check
them and pass them up.

Both directions agree: every request the client builds parses back with its packet's ID and the
same fields (`protoKvldsRequestParse_clientRequest`), and a record the server accepts is exactly
the record the client builds for what it read (`clientRequest_of_parse`).  Every response the
server writes is read back by the client with the same status, value, next key and pairs; for
RANGE this includes the client's bound on the number of pairs, which the server's budget
accounting keeps (`dispatchRange_budget`).
-/

namespace Kivaloo.Kvlds

open Kivaloo.Lib KVLDSKey

/-! ## Requests -/

/-- The request types. -/
inductive ProtoKvldsType
  | params
  | set
  | cas
  | add
  | modify
  | delete
  | cad
  | get
  | range
  deriving DecidableEq, Repr

/-- `PROTO_KVLDS_PARAMS` and the other type codes. -/
def ProtoKvldsType.code : ProtoKvldsType → ℕ
  | .params => 0x00000100
  | .set => 0x00000110
  | .cas => 0x00000111
  | .add => 0x00000112
  | .modify => 0x00000113
  | .delete => 0x00000120
  | .cad => 0x00000121
  | .get => 0x00000130
  | .range => 0x00000131

/-- The type with the code `t`, as the `switch` of `proto_kvlds_request_parse` tells them apart. -/
def ProtoKvldsType.ofCode (t : ℕ) : Option ProtoKvldsType :=
  if t = 0x00000100 then some .params
  else if t = 0x00000110 then some .set
  else if t = 0x00000111 then some .cas
  else if t = 0x00000112 then some .add
  else if t = 0x00000113 then some .modify
  else if t = 0x00000120 then some .delete
  else if t = 0x00000121 then some .cad
  else if t = 0x00000130 then some .get
  else if t = 0x00000131 then some .range
  else none

/-- The fields of `struct proto_kvlds_request` that its type sets: the key, the old value `oval`
and the value, or for RANGE `range_max` and the start and end keys (which the C structure keeps
in `key` and `value`). -/
inductive ProtoKvldsFields
  | params
  | set (key value : KVLDSKey)
  | cas (key oval value : KVLDSKey)
  | add (key value : KVLDSKey)
  | modify (key value : KVLDSKey)
  | delete (key : KVLDSKey)
  | cad (key oval : KVLDSKey)
  | get (key : KVLDSKey)
  | range (rangeMax : UInt32) (rangeStart rangeEnd : KVLDSKey)
  deriving DecidableEq

/-- The type of a request. -/
def ProtoKvldsFields.type : ProtoKvldsFields → ProtoKvldsType
  | .params => .params
  | .set .. => .set
  | .cas .. => .cas
  | .add .. => .add
  | .modify .. => .modify
  | .delete .. => .delete
  | .cad .. => .cad
  | .get .. => .get
  | .range .. => .range

/-- `struct proto_kvlds_request`: the ID of the packet it came in and its fields. -/
structure ProtoKvldsRequest where
  ID : ℕ
  fields : ProtoKvldsFields
  deriving DecidableEq

/-- The `switch` of `proto_kvlds_request_parse` on a record of type `t`, after the type: the
fields, each key taken by `GRABKEY` (`parseKey`), and the bytes after them. -/
def parseFields : ProtoKvldsType → List UInt8 → Option (ProtoKvldsFields × List UInt8)
  | .params, p => some (.params, p)
  | .delete, p => do
    let (key, p) ← parseKey p
    some (.delete key, p)
  | .get, p => do
    let (key, p) ← parseKey p
    some (.get key, p)
  | .set, p => do
    let (key, p) ← parseKey p
    let (value, p) ← parseKey p
    some (.set key value, p)
  | .add, p => do
    let (key, p) ← parseKey p
    let (value, p) ← parseKey p
    some (.add key value, p)
  | .modify, p => do
    let (key, p) ← parseKey p
    let (value, p) ← parseKey p
    some (.modify key value, p)
  | .cad, p => do
    let (key, p) ← parseKey p
    let (oval, p) ← parseKey p
    some (.cad key oval, p)
  | .cas, p => do
    let (key, p) ← parseKey p
    let (oval, p) ← parseKey p
    let (value, p) ← parseKey p
    some (.cas key oval value, p)
  | .range, p =>
    -- `if (P->len - bufpos < 4)`
    if p.length < 4 then none
    else do
      let (rangeStart, q) ← parseKey (p.drop 4)
      let (rangeEnd, q) ← parseKey q
      some (.range (beDec (p.take 4)).toUInt32 rangeStart rangeEnd, q)

/-- `proto_kvlds_request_parse(P, R)` of a packet with the ID `ID` and the data `P`: at least
the four bytes of the type and at most `sizeof(R->blob)` bytes, a known type, its fields, and
nothing after them. -/
def protoKvldsRequestParse (ID : ℕ) (P : List UInt8) : Option ProtoKvldsRequest :=
  if P.length < 4 ∨ 4 + 3 * 256 < P.length then none
  else
    match ProtoKvldsType.ofCode (beDec (P.take 4)) with
    -- "Unrecognized request type received"
    | none => none
    | some t =>
      match parseFields t (P.drop 4) with
      -- "Did we reach the end of the packet?"
      | some (F, []) => some ⟨ID, F⟩
      | _ => none

/-! ## Request records (proto_kvlds_client.c) -/

/-- The record of a request of type `t` whose fields are the keys `ks`, as all the client
encoders but RANGE write it: `be32enc` of the type, then `kvldskey_serialize` of each key. -/
def requestRecord (t : ProtoKvldsType) (ks : List KVLDSKey) : List UInt8 :=
  beEnc 4 t.code ++ (ks.map kvldskeySerialize).flatten

/-- `proto_kvlds_request_params(Q, ...)`: the record it queues. -/
def protoKvldsRequestParams : List UInt8 := requestRecord .params []

/-- `proto_kvlds_request_set(Q, key, value, ...)`. -/
def protoKvldsRequestSet (key value : KVLDSKey) : List UInt8 := requestRecord .set [key, value]

/-- `proto_kvlds_request_cas(Q, key, oval, value, ...)`. -/
def protoKvldsRequestCas (key oval value : KVLDSKey) : List UInt8 :=
  requestRecord .cas [key, oval, value]

/-- `proto_kvlds_request_add(Q, key, value, ...)`. -/
def protoKvldsRequestAdd (key value : KVLDSKey) : List UInt8 := requestRecord .add [key, value]

/-- `proto_kvlds_request_modify(Q, key, value, ...)`. -/
def protoKvldsRequestModify (key value : KVLDSKey) : List UInt8 :=
  requestRecord .modify [key, value]

/-- `proto_kvlds_request_delete(Q, key, ...)`. -/
def protoKvldsRequestDelete (key : KVLDSKey) : List UInt8 := requestRecord .delete [key]

/-- `proto_kvlds_request_cad(Q, key, oval, ...)`. -/
def protoKvldsRequestCad (key oval : KVLDSKey) : List UInt8 := requestRecord .cad [key, oval]

/-- `proto_kvlds_request_get(Q, key, ...)`. -/
def protoKvldsRequestGet (key : KVLDSKey) : List UInt8 := requestRecord .get [key]

/-- `proto_kvlds_request_range(Q, start, end, max, ...)`: "The request size must fit into a
uint32_t", so `max` is cut to `UINT32_MAX`; the client's cookie keeps the same `max`. -/
def protoKvldsRequestRange (start endKey : KVLDSKey) (max : ℕ) : List UInt8 :=
  let max := if max ≥ 2 ^ 32 - 1 then 2 ^ 32 - 1 else max
  beEnc 4 ProtoKvldsType.range.code ++ beEnc 4 max ++ kvldskeySerialize start ++
    kvldskeySerialize endKey

/-- The fields of `F` as its record carries them after the type. -/
def ProtoKvldsFields.bytes : ProtoKvldsFields → List UInt8
  | .params => []
  | .set key value | .add key value | .modify key value | .cad key value =>
    kvldskeySerialize key ++ kvldskeySerialize value
  | .cas key oval value =>
    kvldskeySerialize key ++ kvldskeySerialize oval ++ kvldskeySerialize value
  | .delete key | .get key => kvldskeySerialize key
  | .range rangeMax rangeStart rangeEnd =>
    beEnc 4 rangeMax.toNat ++ kvldskeySerialize rangeStart ++ kvldskeySerialize rangeEnd

/-- The record the client sends for the fields `F`, by the encoder of its type. -/
def clientRequest : ProtoKvldsFields → List UInt8
  | .params => protoKvldsRequestParams
  | .set key value => protoKvldsRequestSet key value
  | .cas key oval value => protoKvldsRequestCas key oval value
  | .add key value => protoKvldsRequestAdd key value
  | .modify key value => protoKvldsRequestModify key value
  | .delete key => protoKvldsRequestDelete key
  | .cad key oval => protoKvldsRequestCad key oval
  | .get key => protoKvldsRequestGet key
  | .range rangeMax rangeStart rangeEnd => protoKvldsRequestRange rangeStart rangeEnd rangeMax.toNat

/-! ## Responses (proto_kvlds_server.c) -/

/-- `proto_kvlds_response_params(Q, ID, kmax, vmax)`: the packet data. -/
def protoKvldsResponseParams (kmax vmax : ℕ) : List UInt8 := beEnc 4 kmax ++ beEnc 4 vmax

/-- `proto_kvlds_response_status(Q, ID, status)`; `none` where
`assert((status == 0) || (status == 1))` fails. -/
def protoKvldsResponseStatus (status : ℕ) : Option (List UInt8) :=
  if status = 0 ∨ status = 1 then some (beEnc 4 status) else none

/-- `proto_kvlds_response_set(Q, ID)`, which is a status response with status 0, as is
`proto_kvlds_response_delete`. -/
def protoKvldsResponseSet : Option (List UInt8) := protoKvldsResponseStatus 0

/-- `proto_kvlds_response_get(Q, ID, status, value)`: the value follows the status only for
status 0 (for status 1 the server passes `NULL`, which is not read). -/
def protoKvldsResponseGet (status : ℕ) (value : KVLDSKey) : Option (List UInt8) :=
  if status = 0 ∨ status = 1 then
    some (beEnc 4 status ++ if status = 0 then kvldskeySerialize value else [])
  else none

/-- The pairs of a RANGE response, each key followed by its value. -/
def rangePairsBytes (ps : List (KVLDSKey × KVLDSKey)) : List UInt8 :=
  (ps.map fun p => kvldskeySerialize p.1 ++ kvldskeySerialize p.2).flatten

/-- `proto_kvlds_response_range(Q, ID, nkeys, next, keys, values)` of the response `rangedone`
builds (`pairs` being the arrays `keys` and `values`): status 0, the number of pairs, the next
key and the pairs; `none` where `assert(nkeys <= UINT32_MAX)` fails. -/
def protoKvldsResponseRange (r : RangeResponse) : Option (List UInt8) :=
  if r.nkeys ≤ 2 ^ 32 - 1 then
    some (beEnc 4 0 ++ beEnc 4 r.nkeys ++ kvldskeySerialize r.next ++ rangePairsBytes r.pairs)
  else none

/-! ## Reading responses (proto_kvlds_client.c) -/

/-- The warning of the `BAD(rtype, ftype)` macro. -/
def badWarning (rtype ftype : String) : String :=
  "Received " ++ rtype ++ " response with " ++ ftype

/-- What `callback_params` passes up, and the warning it prints. -/
structure ParamsReply where
  failed : ℕ
  kmax : ℕ
  vmax : ℕ
  warning : Option String
  deriving DecidableEq, Repr

/-- `callback_params(cookie, buf, buflen)`; `none` is a request that got no response. -/
def callbackParams : Option (List UInt8) → ParamsReply
  | none => ⟨1, 0, 0, none⟩
  | some buf =>
    if buf.length ≠ 8 then ⟨1, 0, 0, some (badWarning "params" "bogus length")⟩
    else ⟨0, beDec (buf.take 4), beDec ((buf.drop 4).take 4), none⟩

/-- `callback_done(cookie, buf, buflen)` for a request of type `rtype` (SET and DELETE): the
`failed` it passes up and the warning it prints.  Only the status is checked, not that nothing
follows it. -/
def callbackDone (rtype : String) : Option (List UInt8) → ℕ × Option String
  | none => (1, none)
  | some buf =>
    if buf.length < 4 then (1, some (badWarning rtype "bogus length"))
    else if beDec (buf.take 4) > 0 then (1, some (badWarning rtype "bogus status code"))
    else (0, none)

/-- What `callback_donep` passes up: `failed` and `status`. -/
structure StatusReply where
  failed : ℕ
  status : ℕ
  warning : Option String
  deriving DecidableEq, Repr

/-- `callback_donep(cookie, buf, buflen)` for a request of type `rtype` (CAS, ADD, MODIFY and
CAD). -/
def callbackDonep (rtype : String) : Option (List UInt8) → StatusReply
  | none => ⟨1, 0, none⟩
  | some buf =>
    if buf.length < 4 then ⟨1, 0, some (badWarning rtype "bogus length")⟩
    else if beDec (buf.take 4) > 1 then ⟨1, 0, some (badWarning rtype "bogus status code")⟩
    else ⟨0, beDec (buf.take 4), none⟩

/-- What `callback_get` passes up: `failed` and the value (`NULL` for status 1). -/
structure GetReply where
  failed : ℕ
  value : Option KVLDSKey
  warning : Option String
  deriving DecidableEq

/-- `callback_get(cookie, buf, buflen)`.  A value that reads but does not end the packet is
passed up with the failure. -/
def callbackGet : Option (List UInt8) → GetReply
  | none => ⟨1, none, none⟩
  | some buf =>
    if buf.length < 4 then ⟨1, none, some (badWarning "GET" "bogus length")⟩
    else if beDec (buf.take 4) > 1 then ⟨1, none, some (badWarning "GET" "bogus status code")⟩
    else if beDec (buf.take 4) = 0 then
      -- `kvldskey_unserialize(&value, &buf[4], buflen - 4)`
      match parseKey (buf.drop 4) with
      | none => ⟨1, none, some "Error parsing GET response value"⟩
      | some (value, rest) =>
        -- `buflen != 4 + valuelen`: bytes are left after the value
        if rest ≠ [] then ⟨1, some value, some (badWarning "GET" "wrong length")⟩
        else ⟨0, some value, none⟩
    else if buf.length ≠ 4 then ⟨1, none, some (badWarning "GET" "wrong length")⟩
    else ⟨0, none, none⟩

/-- The loop of `callback_range` over `nkeys` pairs, each key and value read by
`kvldskey_unserialize` (`parseKey`): the pairs and the bytes after them, or the warning. -/
def rangePairs : ℕ → List UInt8 → Except String (List (KVLDSKey × KVLDSKey) × List UInt8)
  | 0, p => .ok ([], p)
  | n + 1, p =>
    match parseKey p with
    | none => .error "Error parsing RANGE response key"
    | some (k, p) =>
      match parseKey p with
      | none => .error "Error parsing RANGE response value"
      | some (v, p) => (rangePairs n p).map fun (ps, q) => ((k, v) :: ps, q)

/-- What `callback_range` passes up: `failed`, `nkeys`, the next key and the pairs.  On a
failure everything read is freed, and `nkeys` is 0 and `next` is `NULL`. -/
structure RangeReply where
  failed : ℕ
  nkeys : ℕ
  next : Option KVLDSKey
  pairs : List (KVLDSKey × KVLDSKey)
  warning : Option String
  deriving DecidableEq

/-- A failed RANGE response with the warning `w`. -/
def RangeReply.fail (w : Option String) : RangeReply := ⟨1, 0, none, [], w⟩

/-- `callback_range(cookie, buf, buflen)` for a request whose cookie holds `max`: status 0, the
number of pairs, at most `max / 2` of them when more than one, the next key, the pairs, and
nothing after them. -/
def callbackRange (max : ℕ) : Option (List UInt8) → RangeReply
  | none => .fail none
  | some buf =>
    if buf.length < 4 then .fail (some (badWarning "RANGE" "bogus length"))
    else if beDec (buf.take 4) ≠ 0 then .fail (some (badWarning "RANGE" "bogus status code"))
    else if buf.length - 4 < 4 then .fail (some (badWarning "RANGE" "bogus length"))
    else
      let nkeys := beDec ((buf.drop 4).take 4)
      if 1 < nkeys ∧ max / 2 < nkeys then
        .fail (some (badWarning "RANGE" "too many key-value pairs"))
      else
        match parseKey (buf.drop 8) with
        | none => .fail (some "Error parsing RANGE response next key")
        | some (next, p) =>
          match rangePairs nkeys p with
          | .error w => .fail (some w)
          | .ok (pairs, q) =>
            -- `buflen != bufpos`: bytes are left after the pairs
            if q ≠ [] then .fail (some (badWarning "RANGE" "wrong length"))
            else ⟨0, nkeys, some next, pairs, none⟩

/-! ## Type codes -/

@[simp] theorem ProtoKvldsType.ofCode_code (t : ProtoKvldsType) : ofCode t.code = some t := by
  cases t <;> rfl

theorem ProtoKvldsType.code_of_ofCode {n : ℕ} {t : ProtoKvldsType} (h : ofCode n = some t) :
    t.code = n := by
  unfold ofCode at h
  split_ifs at h <;> cases h <;> simp_all [code]

theorem ProtoKvldsType.code_lt (t : ProtoKvldsType) : t.code < 2 ^ 32 := by
  cases t <;> decide

/-! ## Requests read back -/

/-- Every encoder writes the type and then the fields; RANGE's cut of `max` leaves a 32-bit
`range_max` as it is. -/
theorem clientRequest_eq (F : ProtoKvldsFields) :
    clientRequest F = beEnc 4 F.type.code ++ F.bytes := by
  cases F with
  | range m s e =>
    have hcap : (if m.toNat ≥ 2 ^ 32 - 1 then 2 ^ 32 - 1 else m.toNat) = m.toNat := by
      have := m.toNat_lt
      split_ifs <;> omega
    simp only [clientRequest, protoKvldsRequestRange, hcap, ProtoKvldsFields.type,
      ProtoKvldsFields.bytes, List.append_assoc]
  | _ => simp [clientRequest, protoKvldsRequestParams, protoKvldsRequestSet, protoKvldsRequestCas,
      protoKvldsRequestAdd, protoKvldsRequestModify, protoKvldsRequestDelete, protoKvldsRequestCad,
      protoKvldsRequestGet, requestRecord, ProtoKvldsFields.type, ProtoKvldsFields.bytes]

/-- At most three keys follow the type, so every record fits `R->blob`. -/
theorem length_bytes_le (F : ProtoKvldsFields) : F.bytes.length ≤ 3 * 256 := by
  cases F <;> simp only [ProtoKvldsFields.bytes, List.length_append, length_kvldskeySerialize,
    length_beEnc, List.length_nil] <;> grind [serialSize_le]

/-- The fields read back, whatever follows them. -/
theorem parseFields_bytes (F : ProtoKvldsFields) (rest : List UInt8) :
    parseFields F.type (F.bytes ++ rest) = some (F, rest) := by
  cases F with
  | range m s e =>
    have hdrop : (beEnc 4 m.toNat ++ (kvldskeySerialize s ++ (kvldskeySerialize e ++ rest))).drop 4 =
        kvldskeySerialize s ++ (kvldskeySerialize e ++ rest) := List.drop_left' (length_beEnc 4 _)
    have hmax : (beDec ((beEnc 4 m.toNat ++
        (kvldskeySerialize s ++ (kvldskeySerialize e ++ rest))).take 4)).toUInt32 = m := by
      rw [beDec_take_beEnc_append, Nat.mod_eq_of_lt (by simpa using m.toNat_lt)]
      exact UInt32.ofNat_toNat
    simp only [ProtoKvldsFields.type, ProtoKvldsFields.bytes, parseFields, List.append_assoc]
    rw [if_neg (by simp), hdrop, hmax]
    simp [parseKey_kvldskeySerialize]
  | _ => simp [ProtoKvldsFields.type, ProtoKvldsFields.bytes, parseFields,
      parseKey_kvldskeySerialize]

/-- Every request the client builds is accepted, with the ID of its packet and its fields. -/
theorem protoKvldsRequestParse_clientRequest (ID : ℕ) (F : ProtoKvldsFields) :
    protoKvldsRequestParse ID (clientRequest F) = some ⟨ID, F⟩ := by
  have hlen : ¬ ((clientRequest F).length < 4 ∨ 4 + 3 * 256 < (clientRequest F).length) := by
    have := length_bytes_le F
    rw [clientRequest_eq, List.length_append, length_beEnc]
    omega
  have htype : beDec ((clientRequest F).take 4) = F.type.code := by
    rw [clientRequest_eq, beDec_take_beEnc_append,
      Nat.mod_eq_of_lt (by simpa using F.type.code_lt)]
  have hfields : (clientRequest F).drop 4 = F.bytes ++ [] := by
    rw [clientRequest_eq, List.drop_left' (length_beEnc 4 _), List.append_nil]
  unfold protoKvldsRequestParse
  rw [if_neg hlen, htype, ProtoKvldsType.ofCode_code]
  simp only [hfields, parseFields_bytes]

/-- What the `switch` reads is the fields of its type followed by the rest; the cases follow the
number of keys each type takes with `GRABKEY`. -/
theorem bytes_of_parseFields {t : ProtoKvldsType} {p q : List UInt8} {F : ProtoKvldsFields}
    (h : parseFields t p = some (F, q)) : F.type = t ∧ p = F.bytes ++ q := by
  cases t with
  | range =>
    simp only [parseFields] at h
    split_ifs at h with hshort
    simp only [Option.bind_eq_bind, Option.bind_eq_some_iff, parseKey_eq_some_iff,
      Option.some.injEq, Prod.mk.injEq] at h
    obtain ⟨⟨rangeStart, p₁⟩, hp, ⟨rangeEnd, p₂⟩, rfl, rfl, rfl⟩ := h
    refine ⟨rfl, ?_⟩
    -- the 32 bits of `range_max` are the bytes they were read from
    have hmax : beEnc 4 (beDec (p.take 4)).toUInt32.toNat = p.take 4 := by
      have hlt := beDec_lt (p.take 4)
      rw [List.length_take_of_le (by omega)] at hlt
      rw [UInt32.toNat_ofNat', Nat.mod_eq_of_lt (by simpa using hlt)]
      exact beEnc_beDec_take (by omega)
    rw [ProtoKvldsFields.bytes, hmax, List.append_assoc, List.append_assoc, ← hp,
      List.take_append_drop]
  | params =>
    simp only [parseFields, Option.some.injEq, Prod.mk.injEq] at h
    obtain ⟨rfl, rfl⟩ := h
    exact ⟨rfl, rfl⟩
  | delete | get =>
    simp only [parseFields, Option.bind_eq_bind, Option.bind_eq_some_iff, parseKey_eq_some_iff,
      Option.some.injEq, Prod.mk.injEq] at h
    obtain ⟨⟨key, p₁⟩, rfl, rfl, rfl⟩ := h
    exact ⟨rfl, rfl⟩
  | set | add | modify | cad =>
    simp only [parseFields, Option.bind_eq_bind, Option.bind_eq_some_iff, parseKey_eq_some_iff,
      Option.some.injEq, Prod.mk.injEq] at h
    obtain ⟨⟨key, p₁⟩, rfl, ⟨value, p₂⟩, rfl, rfl, rfl⟩ := h
    exact ⟨rfl, (List.append_assoc _ _ _).symm⟩
  | cas =>
    simp only [parseFields, Option.bind_eq_bind, Option.bind_eq_some_iff, parseKey_eq_some_iff,
      Option.some.injEq, Prod.mk.injEq] at h
    obtain ⟨⟨key, p₁⟩, rfl, ⟨oval, p₂⟩, rfl, ⟨value, p₃⟩, rfl, rfl, rfl⟩ := h
    exact ⟨rfl, by simp [ProtoKvldsFields.bytes]⟩

/-- The parser accepts only records that its fields fill exactly: what it accepts is the record
the client builds for what it read. -/
theorem clientRequest_of_parse {ID : ℕ} {P : List UInt8} {R : ProtoKvldsRequest}
    (h : protoKvldsRequestParse ID P = some R) : R.ID = ID ∧ P = clientRequest R.fields := by
  unfold protoKvldsRequestParse at h
  split_ifs at h with hlen
  split at h
  · cases h
  rename_i t ht
  split at h
  · rename_i F hF
    cases h
    obtain ⟨htype, hbytes⟩ := bytes_of_parseFields hF
    refine ⟨rfl, ?_⟩
    have htake : P.take 4 = beEnc 4 t.code := by
      rw [ProtoKvldsType.code_of_ofCode ht]
      exact (beEnc_beDec_take (by omega)).symm
    rw [clientRequest_eq, htype, ← htake, ← List.append_nil F.bytes, ← hbytes,
      List.take_append_drop]
  · cases h

/-! ## Responses read back -/

/-- A PARAMS response reads back as its two 32-bit limits. -/
theorem callbackParams_responseParams (kmax vmax : ℕ) :
    callbackParams (some (protoKvldsResponseParams kmax vmax)) =
      ⟨0, kmax % 2 ^ 32, vmax % 2 ^ 32, none⟩ := by
  simp [callbackParams, protoKvldsResponseParams, List.drop_left']

/-- The status 0 of SET and DELETE passes `callback_done`. -/
theorem callbackDone_responseStatus {b : List UInt8} (rtype : String)
    (h : protoKvldsResponseStatus 0 = some b) : callbackDone rtype (some b) = (0, none) := by
  simp only [protoKvldsResponseStatus, true_or, if_true, Option.some.injEq] at h
  subst h
  simp [callbackDone]

/-- A status response reads back through `callback_donep` with its status. -/
theorem callbackDonep_responseStatus {status : ℕ} {b : List UInt8} (rtype : String)
    (h : protoKvldsResponseStatus status = some b) :
    callbackDonep rtype (some b) = ⟨0, status, none⟩ := by
  simp only [protoKvldsResponseStatus] at h
  split_ifs at h with hs
  cases h
  have hlt : status < 4294967296 := by omega
  have hdec : beDec ((beEnc 4 status).take 4) = status := by
    simp [hlt]
  simp only [callbackDonep, length_beEnc, hdec]
  rw [if_neg (by omega), if_neg (by omega)]

/-- A GET response reads back with its value for status 0 and none for status 1. -/
theorem callbackGet_responseGet {status : ℕ} {value : KVLDSKey} {b : List UInt8}
    (h : protoKvldsResponseGet status value = some b) :
    callbackGet (some b) = ⟨0, if status = 0 then some value else none, none⟩ := by
  simp only [protoKvldsResponseGet] at h
  by_cases hs : status = 0 ∨ status = 1
  swap
  · rw [if_neg hs] at h
    cases h
  rw [if_pos hs, Option.some.injEq] at h
  subst h
  rcases hs with rfl | rfl
  · -- the value follows the status and is all that follows it
    have hdrop : (beEnc 4 0 ++ kvldskeySerialize value).drop 4 = kvldskeySerialize value ++ [] := by
      rw [List.append_nil, List.drop_left' (length_beEnc 4 0)]
    simp only [if_true, callbackGet, hdrop, parseKey_kvldskeySerialize]
    simp
  · simp [callbackGet]

/-- The pairs of a RANGE response read back, whatever follows them. -/
theorem rangePairs_rangePairsBytes (ps : List (KVLDSKey × KVLDSKey)) (rest : List UInt8) :
    rangePairs ps.length (rangePairsBytes ps ++ rest) = .ok (ps, rest) := by
  induction ps with
  | nil => rfl
  | cons p ps ih =>
    simp only [rangePairsBytes, List.map_cons, List.flatten_cons, List.append_assoc,
      List.length_cons, rangePairs, parseKey_kvldskeySerialize] at ih ⊢
    rw [ih]
    rfl

/-- A RANGE response with as many pairs as it announces, and more than one only within half of
the client's `max`, is written and reads back with its number of pairs, next key and pairs. -/
theorem callbackRange_responseRange {max : ℕ} {r : RangeResponse} (hmax : max < 2 ^ 32)
    (hlen : r.pairs.length = r.nkeys) (hfits : r.nkeys ≤ 1 ∨ 2 * r.nkeys ≤ max) :
    ∃ b, protoKvldsResponseRange r = some b ∧
      callbackRange max (some b) = ⟨0, r.nkeys, some r.next, r.pairs, none⟩ := by
  have hn : r.nkeys ≤ 2 ^ 32 - 1 := by omega
  refine ⟨_, if_pos hn, ?_⟩
  set b := beEnc 4 0 ++ beEnc 4 r.nkeys ++ kvldskeySerialize r.next ++ rangePairsBytes r.pairs
  have hstatus : beDec (b.take 4) = 0 := by
    simp [b]
  have hnkeys : beDec ((b.drop 4).take 4) = r.nkeys := by
    have hlt : r.nkeys < 4294967296 := by omega
    simp [b, List.drop_left', hlt]
  have hrest : b.drop 8 = kvldskeySerialize r.next ++ (rangePairsBytes r.pairs ++ []) := by
    simp only [b]
    rw [List.append_nil, List.append_assoc (beEnc 4 0 ++ beEnc 4 r.nkeys),
      List.drop_left' (by simp)]
  have hpairs := rangePairs_rangePairsBytes r.pairs []
  rw [hlen] at hpairs
  have hblen : 8 ≤ b.length := by
    simp only [b, List.length_append, length_beEnc]
    omega
  -- the client's bound on the number of pairs holds
  have hcheck : ¬ (1 < r.nkeys ∧ max / 2 < r.nkeys) := by omega
  simp only [callbackRange, hstatus, hnkeys, hrest, parseKey_kvldskeySerialize, hpairs]
  rw [if_neg (by omega), if_neg (by simp), if_neg (by omega), if_neg hcheck, if_neg (by simp)]

/-! ## Both sides agree -/

theorem protoKvlds_codecsAgree :
    (∀ ID F, protoKvldsRequestParse ID (clientRequest F) = some ⟨ID, F⟩) ∧
    (∀ ID P R, protoKvldsRequestParse ID P = some R → R.ID = ID ∧ P = clientRequest R.fields) ∧
    (∀ rtype b, protoKvldsResponseSet = some b → callbackDone rtype (some b) = (0, none)) ∧
    (∀ rtype status b, protoKvldsResponseStatus status = some b →
      callbackDonep rtype (some b) = ⟨0, status, none⟩) ∧
    (∀ status value b, protoKvldsResponseGet status value = some b →
      callbackGet (some b) = ⟨0, if status = 0 then some value else none, none⟩) ∧
    (∀ pagelen root (rangeMax : UInt32) rangeStart rangeEnd order resp,
      dispatchRange pagelen root ⟨rangeStart, rangeEnd, rangeMax.toNat⟩ order = some resp →
        (1 < resp.nkeys → resp.nkeys ≤ rangeMax.toNat / 2) ∧
        ∃ b, protoKvldsResponseRange resp = some b ∧
          callbackRange rangeMax.toNat (some b) =
            ⟨0, resp.nkeys, some resp.next, resp.pairs, none⟩) := by
  refine ⟨protoKvldsRequestParse_clientRequest, fun _ _ _ => clientRequest_of_parse,
    fun rtype _ => callbackDone_responseStatus rtype, fun rtype _ _ => callbackDonep_responseStatus rtype,
    fun _ _ _ => callbackGet_responseGet, ?_⟩
  intro pagelen root rangeMax rangeStart rangeEnd order resp h
  -- the server's budget accounting keeps the bound the client checks
  obtain ⟨hlen, hfits⟩ := dispatchRange_budget h
  dsimp only at hfits
  refine ⟨fun hgt => by omega, callbackRange_responseRange rangeMax.toNat_lt hlen hfits⟩

/-- Both sides at a CAS request, at a GET response with a value, and at a RANGE over the leaves of
`cousinRoot` from the key `1 1` up to the separator before the last leaf, with a budget of 4000
bytes: four pairs, from three leaves. -/
theorem protoKvlds_codecsAgree_cousinRange :
    protoKvldsRequestParse 5 (clientRequest (.cas (listKey [1]) (listKey [2]) (listKey [3]))) =
        some ⟨5, .cas (listKey [1]) (listKey [2]) (listKey [3])⟩ ∧
      (∃ b, protoKvldsResponseGet 0 (listKey [3]) = some b ∧
        callbackGet (some b) = ⟨0, some (listKey [3]), none⟩) ∧
      ∃ resp b, dispatchRange 512 cousinRoot ⟨listKey [1, 1], bytesKey 69 5, (4000 : UInt32).toNat⟩ id =
          some resp ∧ resp.nkeys = 4 ∧ protoKvldsResponseRange resp = some b ∧
        callbackRange (4000 : UInt32).toNat (some b) = ⟨0, resp.nkeys, some resp.next, resp.pairs, none⟩ := by
  obtain ⟨hreq, -, -, -, hget, hrange⟩ := protoKvlds_codecsAgree
  have hsome : (dispatchRange 512 cousinRoot
      ⟨listKey [1, 1], bytesKey 69 5, (4000 : UInt32).toNat⟩ id).map (·.nkeys) = some 4 := by
    decide
  obtain ⟨resp, hresp, hn⟩ := Option.map_eq_some_iff.mp hsome
  obtain ⟨-, b, hb, hcb⟩ := hrange 512 cousinRoot 4000 _ _ id resp hresp
  exact ⟨hreq 5 _, ⟨_, rfl, by simpa using hget 0 (listKey [3]) _ rfl⟩, resp, b, hresp, hn, hb, hcb⟩

end Kivaloo.Kvlds
