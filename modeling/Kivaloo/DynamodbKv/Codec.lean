import Mathlib
import Kivaloo.DynamodbKv.Request
import Kivaloo.Lib.BigEndian

/-!
# The DynamoDB-KV wire protocol (lib/proto_dynamodb_kv)

The client (`proto_dynamodb_kv_client.c`) writes a request record as the 32-bit type, a length
byte and the key, then each value as its 32-bit length and its bytes (`requestBytes`); it refuses
keys longer than 255 bytes and values longer than 256 kiB.  The server parses the record
(`protoDynamodbKvRequestParse`, in `Request`) and answers with a 32-bit status, followed for a
successful GET by the 32-bit length of the value and the value
(`protoDynamodbKvResponseStatus`, `protoDynamodbKvResponseData`); the client's `callback_status`
and `callback_data` read the answer back.

Both directions agree: every request the client builds parses back as itself
(`protoDynamodbKvRequestParse_clientRequest`), and the parser accepts only records that its
fields fill exactly (`requestBytes_of_parse`); every response the server writes reads back with
the same status and value, and a GET response whose length field disagrees with the packet
length is a failure, even where `8 + len` wraps in 32 bits (`callbackData_failed_of_length_ne`).
The packet ID is copied by the wire layer on both sides and is left out here.
-/

namespace Kivaloo.DynamodbKv

open Kivaloo.Lib

/-! ## Type codes -/

/-- `PROTO_DDBKV_PUT` and the other type codes. -/
def ProtoDdbkvType.code : ProtoDdbkvType → ℕ
  | .put => 0x00010100
  | .icas => 0x00010101
  | .create => 0x00010102
  | .get => 0x00010110
  | .getc => 0x00010111
  | .delete => 0x00010120

@[simp] theorem ProtoDdbkvType.ofCode_code (t : ProtoDdbkvType) : ofCode t.code = some t := by
  cases t <;> rfl

theorem ProtoDdbkvType.code_of_ofCode {n : ℕ} {t : ProtoDdbkvType} (h : ofCode n = some t) :
    t.code = n := by
  unfold ofCode at h
  split_ifs at h <;> cases h <;> simp_all [code]

theorem ProtoDdbkvType.code_lt (t : ProtoDdbkvType) : t.code < 2 ^ 32 := by
  cases t <;> decide

/-! ## Request records (proto_dynamodb_kv_client.c) -/

/-- A value as the client writes it: `be32enc(p, (uint32_t)buflen)`, then the bytes. -/
def valueBytes (v : List UInt8) : List UInt8 := beEnc 4 v.length ++ v

/-- The values a request of type `t` carries, as the client writes them. -/
def valuesBytes (t : ProtoDdbkvType) (buf buf2 : List UInt8) : List UInt8 :=
  match t with
  | .put | .create => valueBytes buf
  | .icas => valueBytes buf ++ valueBytes buf2
  | .get | .getc | .delete => []

/-- The record of a request: the type, the key's length byte and the key, and the values its type
carries. -/
def requestBytes (R : ProtoDdbkvRequest) : List UInt8 :=
  beEnc 4 R.type.code ++ [R.key.length.toUInt8] ++ R.key ++ valuesBytes R.type R.buf R.buf2

/-- The requests with a key and one value (`proto_dynamodb_kv_request_put` and `_create`). -/
def requestKeyValue (t : ProtoDdbkvType) (key buf : List UInt8) : Except String (List UInt8) :=
  if key.length > 255 then .error "Key is too long"
  else if buf.length > 256 * 1024 then .error "Value is too long"
  else .ok (requestBytes ⟨t, key, buf, []⟩)

/-- The requests with a key only (`proto_dynamodb_kv_request_get`, `_getc` and `_delete`). -/
def requestKey (t : ProtoDdbkvType) (key : List UInt8) : Except String (List UInt8) :=
  if key.length > 255 then .error "Key is too long"
  else .ok (requestBytes ⟨t, key, [], []⟩)

/-- `proto_dynamodb_kv_request_put(Q, key, buf, buflen, ...)`: the record it queues. -/
def protoDynamodbKvRequestPut (key buf : List UInt8) : Except String (List UInt8) :=
  requestKeyValue .put key buf

/-- `proto_dynamodb_kv_request_icas(Q, key, buf, buflen, buf2, buflen2, ...)`, which checks both
values. -/
def protoDynamodbKvRequestIcas (key buf buf2 : List UInt8) : Except String (List UInt8) :=
  if key.length > 255 then .error "Key is too long"
  else if buf.length > 256 * 1024 ∨ buf2.length > 256 * 1024 then .error "Value is too long"
  else .ok (requestBytes ⟨.icas, key, buf, buf2⟩)

/-- `proto_dynamodb_kv_request_create(Q, key, buf, buflen, ...)`. -/
def protoDynamodbKvRequestCreate (key buf : List UInt8) : Except String (List UInt8) :=
  requestKeyValue .create key buf

/-- `proto_dynamodb_kv_request_get(Q, key, ...)`. -/
def protoDynamodbKvRequestGet (key : List UInt8) : Except String (List UInt8) :=
  requestKey .get key

/-- `proto_dynamodb_kv_request_getc(Q, key, ...)`. -/
def protoDynamodbKvRequestGetc (key : List UInt8) : Except String (List UInt8) :=
  requestKey .getc key

/-- `proto_dynamodb_kv_request_delete(Q, key, ...)`. -/
def protoDynamodbKvRequestDelete (key : List UInt8) : Except String (List UInt8) :=
  requestKey .delete key

/-- The record the client sends for a request, by the encoder of its type. -/
def clientRequest (R : ProtoDdbkvRequest) : Except String (List UInt8) :=
  match R.type with
  | .put => protoDynamodbKvRequestPut R.key R.buf
  | .icas => protoDynamodbKvRequestIcas R.key R.buf R.buf2
  | .create => protoDynamodbKvRequestCreate R.key R.buf
  | .get => protoDynamodbKvRequestGet R.key
  | .getc => protoDynamodbKvRequestGetc R.key
  | .delete => protoDynamodbKvRequestDelete R.key

/-- A request the client can send: a key of at most 255 bytes without a NUL (a C string),
values of at most 256 kiB, and no value where its type carries none. -/
structure ProtoDdbkvRequest.Sendable (R : ProtoDdbkvRequest) : Prop where
  key_nul : 0 ∉ R.key
  key_len : R.key.length ≤ 255
  buf_len : R.buf.length ≤ 256 * 1024
  buf2_len : R.buf2.length ≤ 256 * 1024
  buf_nil : R.type = .get ∨ R.type = .getc ∨ R.type = .delete → R.buf = []
  buf2_nil : R.type ≠ .icas → R.buf2 = []

/-! ## Responses (proto_dynamodb_kv_server.c) -/

/-- `proto_dynamodb_kv_response_status(Q, ID, status)`: the packet data. -/
def protoDynamodbKvResponseStatus (status : ℕ) : List UInt8 := beEnc 4 status

/-- `proto_dynamodb_kv_response_data(Q, ID, status, len, buf)`: the packet data.  The length
`rlen = 4 + ((status == 0) ? len + 4 : 0)` is computed in 32 bits; where it wraps, the writes go
past the buffer, which is undefined (`none`). -/
def protoDynamodbKvResponseData (status : ℕ) (buf : List UInt8) : Option (List UInt8) :=
  let rlen := if status = 0 then (8 + buf.length) % 2 ^ 32 else 4
  let data := beEnc 4 status ++ if status = 0 then valueBytes buf else []
  if data.length = rlen then some data else none

/-! ## Reading responses (proto_dynamodb_kv_client.c) -/

/-- `callback_status(cookie, buf, buflen)`: the `failed` it passes up (0 on success, 1 on failure,
2 for a failed precondition) and the warning it prints; `none` is a request that got no
response. -/
def callbackStatus : Option (List UInt8) → ℕ × Option String
  | none => (1, none)
  | some buf =>
    if buf.length ≠ 4 then (1, some "Received status response with bogus length")
    else
      match be32dec buf with
      | 0 => (0, none)
      | 1 => (1, none)
      | 2 => (2, none)
      | _ => (1, some "Received status response with invalid status")

/-- What `callback_data` passes up: `failed`, the data pointer (`dbuf`, the bytes from offset 8)
and `len`; and the warning it prints. -/
structure DataResult where
  failed : ℕ
  dbuf : Option (List UInt8)
  len : ℕ
  warning : Option String
  deriving DecidableEq, Repr

/-- `callback_data(cookie, buf, buflen)`.  `len` is read before the last length check, so a GET
response with a bad length is passed up with the `len` it claimed. -/
def callbackData : Option (List UInt8) → DataResult
  | none => ⟨1, none, 0, none⟩
  | some buf =>
    if buf.length < 4 then ⟨1, none, 0, some "Received GET response with bogus length"⟩
    else
      match be32dec buf with
      | 0 =>
        if buf.length < 8 then ⟨1, none, 0, some "Received GET response with bogus length"⟩
        else
          let len := be32dec (buf.drop 4)
          -- `buflen != 8 + len`: the sum is a `uint32_t`
          if buf.length ≠ (8 + len) % 2 ^ 32 then
            ⟨1, none, len, some "Received GET response with bogus length"⟩
          else ⟨0, some (buf.drop 8), len, none⟩
      | 1 =>
        if buf.length ≠ 4 then ⟨1, none, 0, some "Received GET response with bogus length"⟩
        else ⟨1, none, 0, none⟩
      | 2 =>
        if buf.length ≠ 4 then ⟨1, none, 0, some "Received GET response with bogus length"⟩
        else ⟨2, none, 0, none⟩
      | _ => ⟨1, none, 0, some "Received GET response with invalid status"⟩

/-! ## 32-bit fields -/

/-- `be32dec` reads the first four bytes as `beDec` does. -/
theorem be32dec_eq_beDec {P : List UInt8} (h : 4 ≤ P.length) : be32dec P = beDec (P.take 4) := by
  match P, h with
  | p0 :: p1 :: p2 :: p3 :: _, _ =>
    simp only [be32dec, List.take, beDec, List.foldl]
    ring

@[simp] theorem be32dec_beEnc_append (n : ℕ) (rest : List UInt8) :
    be32dec (beEnc 4 n ++ rest) = n % 2 ^ 32 := by
  rw [be32dec_eq_beDec (by simp), List.take_left' (length_beEnc 4 n), beDec_beEnc]
  norm_num

theorem be32dec_lt (P : List UInt8) : be32dec P < 2 ^ 32 := by
  unfold be32dec
  split
  · rename_i p0 p1 p2 p3 _
    have := p0.toNat_lt
    have := p1.toNat_lt
    have := p2.toNat_lt
    have := p3.toNat_lt
    omega
  · norm_num

/-- The first four bytes of a record are the 32-bit field they spell. -/
theorem beEnc_be32dec {P : List UInt8} (h : 4 ≤ P.length) :
    beEnc 4 (be32dec P) ++ P.drop 4 = P := by
  have hbytes := beEnc_beDec (P.take 4)
  rw [List.length_take_of_le h] at hbytes
  rw [be32dec_eq_beDec h, hbytes, List.take_append_drop]

@[simp] theorem length_valueBytes (v : List UInt8) : (valueBytes v).length = 4 + v.length := by
  simp [valueBytes]

/-- The length byte of a key of at most 255 bytes is its length. -/
theorem toNat_toUInt8_length {key : List UInt8} (h : key.length ≤ 255) :
    key.length.toUInt8.toNat = key.length := by
  simp [Nat.toUInt8, Nat.mod_eq_of_lt (show key.length < 256 by omega)]

/-! ## Requests parse back -/

theorem readValue_valueBytes {v : List UInt8} (h : v.length < 2 ^ 32) (rest : List UInt8) :
    readValue (valueBytes v ++ rest) = some (v, rest) := by
  have hlen : ¬ (valueBytes v ++ rest).length < 4 := by
    simp only [length_valueBytes, List.length_append]
    omega
  have hdec : be32dec (valueBytes v ++ rest) = v.length := by
    simp only [valueBytes, List.append_assoc, be32dec_beEnc_append]
    exact Nat.mod_eq_of_lt h
  have hdrop : (valueBytes v ++ rest).drop 4 = v ++ rest := by
    simp [valueBytes]
  simp only [readValue, hlen, if_false, hdec, hdrop]
  simp

/-- What `readValue` accepts is a value as the client writes it. -/
theorem readValue_eq_some {P v rest : List UInt8} (h : readValue P = some (v, rest)) :
    P = valueBytes v ++ rest := by
  unfold readValue at h
  simp only at h
  split_ifs at h with h₁ h₂
  simp only [Option.some.injEq, Prod.mk.injEq] at h
  obtain ⟨rfl, rfl⟩ := h
  have hlen : (List.take (be32dec P) (List.drop 4 P)).length = be32dec P := by
    rw [List.length_take]
    omega
  rw [valueBytes, hlen, List.append_assoc, List.take_append_drop, beEnc_be32dec (by omega)]

/-- `readValues` for ICAS, one value after the other. -/
theorem readValues_icas (P : List UInt8) : readValues .icas P =
    match readValue P with
    | none => none
    | some (v, r) => (readValue r).map fun (v2, r) => (v, v2, r) := rfl

theorem readValues_valuesBytes {R : ProtoDdbkvRequest} (hbuf : R.buf.length < 2 ^ 32)
    (hbuf2 : R.buf2.length < 2 ^ 32) :
    readValues R.type (valuesBytes R.type R.buf R.buf2) =
      match R.type with
        | .put | .create => some (R.buf, [], [])
        | .icas => some (R.buf, R.buf2, [])
        | .get | .getc | .delete => some ([], [], []) := by
  obtain ⟨t, key, buf, buf2⟩ := R
  dsimp only at hbuf hbuf2 ⊢
  have h₁ := readValue_valueBytes hbuf []
  have h₂ := readValue_valueBytes hbuf2 []
  rw [List.append_nil] at h₁ h₂
  -- each value is read before `readValues` looks at what follows it
  cases t
  case icas =>
    show readValues .icas (valueBytes buf ++ valueBytes buf2) = some (buf, buf2, [])
    rw [readValues_icas, readValue_valueBytes hbuf]
    dsimp only
    rw [h₂]
    rfl
  case put | create =>
    show readValues _ (valueBytes buf) = some (buf, [], [])
    simp only [readValues, h₁, Option.map_some]
  case get | getc | delete => rfl

/-- Every record built from a key of at most 255 bytes without a NUL and values below `2 ^ 32`
bytes parses back as the request it was built from. -/
theorem protoDynamodbKvRequestParse_requestBytes {R : ProtoDdbkvRequest} (hnul : 0 ∉ R.key)
    (hkey : R.key.length ≤ 255) (hbuf : R.buf.length < 2 ^ 32) (hbuf2 : R.buf2.length < 2 ^ 32)
    (hnil : R.type = .get ∨ R.type = .getc ∨ R.type = .delete → R.buf = [])
    (hnil2 : R.type ≠ .icas → R.buf2 = []) :
    protoDynamodbKvRequestParse (requestBytes R) = some R := by
  have hlen : ¬ (requestBytes R).length < 4 := by simp [requestBytes]
  have hdrop : (requestBytes R).drop 4 =
      R.key.length.toUInt8 :: (R.key ++ valuesBytes R.type R.buf R.buf2) := by
    simp only [requestBytes, List.append_assoc]
    rw [List.drop_left' (length_beEnc 4 _)]
    rfl
  have hcode : be32dec (requestBytes R) = R.type.code := by
    simp only [requestBytes, List.append_assoc, be32dec_beEnc_append]
    exact Nat.mod_eq_of_lt R.type.code_lt
  rw [protoDynamodbKvRequestParse, if_neg hlen, hdrop]
  dsimp only
  rw [toNat_toUInt8_length hkey, List.take_left, List.drop_left, if_neg (by simpa using hnul),
    hcode, ProtoDdbkvType.ofCode_code]
  dsimp only
  rw [readValues_valuesBytes hbuf hbuf2]
  -- the values the type does not carry are empty
  obtain ⟨t, key, buf, buf2⟩ := R
  cases t <;> simp_all

/-- The client's encoders write `requestBytes` for every request it can send. -/
theorem clientRequest_eq {R : ProtoDdbkvRequest} (hR : R.Sendable) :
    clientRequest R = .ok (requestBytes R) := by
  have hkey : ¬ R.key.length > 255 := by have := hR.key_len; omega
  have hbuf : ¬ R.buf.length > 256 * 1024 := by have := hR.buf_len; omega
  have hbuf2 : ¬ R.buf2.length > 256 * 1024 := by have := hR.buf2_len; omega
  obtain ⟨t, key, buf, buf2⟩ := R
  dsimp only at hkey hbuf hbuf2
  -- the encoder of each type writes the values that type carries, which are all `R` has
  cases t
  case icas =>
    simp [clientRequest, protoDynamodbKvRequestIcas, hkey, hbuf, hbuf2]
  case put | create =>
    have h2 : buf2 = [] := hR.buf2_nil (by simp)
    simp [clientRequest, protoDynamodbKvRequestPut, protoDynamodbKvRequestCreate, requestKeyValue,
      hkey, hbuf, h2]
  case get | getc | delete =>
    have h1 : buf = [] := hR.buf_nil (by simp)
    have h2 : buf2 = [] := hR.buf2_nil (by simp)
    simp [clientRequest, protoDynamodbKvRequestGet, protoDynamodbKvRequestGetc,
      protoDynamodbKvRequestDelete, requestKey, hkey, h1, h2]

/-- Every request the client can send parses back as itself. -/
theorem protoDynamodbKvRequestParse_clientRequest {R : ProtoDdbkvRequest} (hR : R.Sendable) :
    ∃ P, clientRequest R = .ok P ∧ protoDynamodbKvRequestParse P = some R := by
  have hbuf : R.buf.length < 2 ^ 32 := by have := hR.buf_len; omega
  have hbuf2 : R.buf2.length < 2 ^ 32 := by have := hR.buf2_len; omega
  exact ⟨_, clientRequest_eq hR, protoDynamodbKvRequestParse_requestBytes hR.key_nul hR.key_len
    hbuf hbuf2 hR.buf_nil hR.buf2_nil⟩

/-! ## What the parser accepts -/

/-- The values `readValues` accepts are the bytes it read. -/
theorem readValues_eq_some {t : ProtoDdbkvType} {P buf buf2 : List UInt8}
    (h : readValues t P = some (buf, buf2, [])) : P = valuesBytes t buf buf2 := by
  cases t with
  | put | create =>
    simp only [readValues, Option.map_eq_some_iff, Prod.exists] at h
    obtain ⟨v, r, hv, rfl, -, rfl⟩ := h
    simpa [valuesBytes] using readValue_eq_some hv
  | icas =>
    simp only [readValues] at h
    split at h
    · cases h
    · rename_i v r hv
      simp only [Option.map_eq_some_iff, Prod.exists] at h
      obtain ⟨v2, r2, hv2, rfl, rfl, rfl⟩ := h
      rw [readValue_eq_some hv, readValue_eq_some hv2]
      simp [valuesBytes]
  | get | getc | delete =>
    simp only [readValues, Option.some.injEq, Prod.mk.injEq] at h
    exact h.2.2

/-- The parser accepts only records that the fields it read fill exactly. -/
theorem requestBytes_of_parse {P : List UInt8} {R : ProtoDdbkvRequest}
    (h : protoDynamodbKvRequestParse P = some R) : requestBytes R = P := by
  unfold protoDynamodbKvRequestParse at h
  split_ifs at h with h4
  split at h
  · cases h
  rename_i buflen rest hdrop
  simp only at h
  split_ifs at h with hkey
  split at h
  · cases h
  rename_i t ht
  split at h
  · rename_i buf buf2 hvals
    cases h
    have hklen : (rest.take buflen.toNat).length = buflen.toNat := by
      rw [List.length_take]
      omega
    have hbyte : (rest.take buflen.toNat).length.toUInt8 = buflen := by
      rw [hklen]
      exact UInt8.toNat_inj.mp (by simp [Nat.toUInt8])
    -- the record is the type field, the length byte, the key and the values read
    calc requestBytes ⟨t, rest.take buflen.toNat, buf, buf2⟩
        = beEnc 4 (be32dec P) ++ buflen :: (rest.take buflen.toNat ++
            rest.drop buflen.toNat) := by
          simp only [requestBytes, ProtoDdbkvType.code_of_ofCode ht, hbyte,
            ← readValues_eq_some hvals, List.append_assoc, List.cons_append, List.nil_append]
      _ = P := by rw [List.take_append_drop, ← hdrop, beEnc_be32dec (by omega)]
  · cases h

/-! ## Responses read back -/

@[simp] theorem be32dec_beEnc (n : ℕ) : be32dec (beEnc 4 n) = n % 2 ^ 32 := by
  simpa using be32dec_beEnc_append n []

/-- `callback_status` reads back every status `proto_dynamodb_kv_response_status` writes. -/
theorem callbackStatus_responseStatus {status : ℕ} (hs : status ≤ 2) :
    callbackStatus (some (protoDynamodbKvResponseStatus status)) = (status, none) := by
  have hdec : be32dec (beEnc 4 status) = status := by
    rw [be32dec_beEnc]
    exact Nat.mod_eq_of_lt (by omega)
  simp only [callbackStatus, protoDynamodbKvResponseStatus, length_beEnc, ne_eq, not_true_eq_false,
    if_false, hdec]
  interval_cases status <;> rfl

/-- A successful GET response: the status, the value's length and the value, when `len + 8`
does not wrap. -/
theorem protoDynamodbKvResponseData_zero {buf : List UInt8} (h : buf.length < 2 ^ 32 - 8) :
    protoDynamodbKvResponseData 0 buf = some (beEnc 4 0 ++ valueBytes buf) := by
  have hlen : (beEnc 4 0 ++ valueBytes buf).length = (8 + buf.length) % 2 ^ 32 := by
    rw [Nat.mod_eq_of_lt (by omega)]
    simp only [List.length_append, length_beEnc, length_valueBytes]
    omega
  simp only [protoDynamodbKvResponseData, if_true, hlen]

/-- A failed GET response is the status alone. -/
theorem protoDynamodbKvResponseData_fail {status : ℕ} (hs : status = 1 ∨ status = 2)
    (buf : List UInt8) : protoDynamodbKvResponseData status buf = some (beEnc 4 status) := by
  have h0 : status ≠ 0 := by omega
  simp [protoDynamodbKvResponseData, h0]

/-- `callback_data` passes up the value of a successful GET response, and its length. -/
theorem callbackData_zero {buf : List UInt8} (h : buf.length < 2 ^ 32 - 8) :
    callbackData (some (beEnc 4 0 ++ valueBytes buf)) = ⟨0, some buf, buf.length, none⟩ := by
  have hlen : (beEnc 4 0 ++ valueBytes buf).length = 8 + buf.length := by
    simp only [List.length_append, length_beEnc, length_valueBytes]
    omega
  have hstatus : be32dec (beEnc 4 0 ++ valueBytes buf) = 0 := by simp
  have hdrop4 : (beEnc 4 0 ++ valueBytes buf).drop 4 = beEnc 4 buf.length ++ buf := by
    simp [valueBytes]
  have hdec : be32dec (beEnc 4 buf.length ++ buf) = buf.length := by
    rw [be32dec_beEnc_append]
    exact Nat.mod_eq_of_lt (by omega)
  have hdrop8 : (beEnc 4 0 ++ valueBytes buf).drop 8 = buf := by
    simp [valueBytes, List.drop_append]
  have hwrap : (8 + buf.length) % 2 ^ 32 = 8 + buf.length := Nat.mod_eq_of_lt (by omega)
  have h4 : ¬ 8 + buf.length < 4 := by omega
  have h8 : ¬ 8 + buf.length < 8 := by omega
  simp only [callbackData, hlen, h4, h8, if_false, hstatus, hdrop4, hdec, hdrop8, hwrap, ne_eq,
    not_true_eq_false]

/-- `callback_data` passes up the status of a failed GET response. -/
theorem callbackData_fail {status : ℕ} (hs : status = 1 ∨ status = 2) :
    callbackData (some (beEnc 4 status)) = ⟨status, none, 0, none⟩ := by
  have hdec : be32dec (beEnc 4 status) = status := by
    rw [be32dec_beEnc]
    exact Nat.mod_eq_of_lt (by omega)
  rcases hs with rfl | rfl <;> simp only [callbackData, length_beEnc, hdec] <;> rfl

/-- A successful GET response whose length field disagrees with the packet length is a failure:
where `8 + len` wraps in 32 bits it falls below the 8 bytes the packet has. -/
theorem callbackData_failed_of_length_ne {buf : List UInt8} (h8 : 8 ≤ buf.length)
    (h0 : be32dec buf = 0) (hne : buf.length ≠ 8 + be32dec (buf.drop 4)) :
    (callbackData (some buf)).failed = 1 := by
  have hlt := be32dec_lt (buf.drop 4)
  have hwrap : buf.length ≠ (8 + be32dec (buf.drop 4)) % 2 ^ 32 := by omega
  have h4 : ¬ buf.length < 4 := by omega
  have h8' : ¬ buf.length < 8 := by omega
  simp only [callbackData, h4, h8', if_false, h0, hwrap, ne_eq, not_false_eq_true, if_true]

/-- The client, the server and the client's callbacks agree on every request and response. -/
theorem protoDynamodbKv_codecsAgree :
    (∀ R : ProtoDdbkvRequest, R.Sendable →
      ∃ P, clientRequest R = .ok P ∧ protoDynamodbKvRequestParse P = some R) ∧
    (∀ P R, protoDynamodbKvRequestParse P = some R → requestBytes R = P) ∧
    (∀ status, status ≤ 2 →
      callbackStatus (some (protoDynamodbKvResponseStatus status)) = (status, none)) ∧
    (∀ buf : List UInt8, buf.length < 2 ^ 32 - 8 → ∃ data,
      protoDynamodbKvResponseData 0 buf = some data ∧
        callbackData (some data) = ⟨0, some buf, buf.length, none⟩) ∧
    (∀ status (buf : List UInt8), status = 1 ∨ status = 2 → ∃ data,
      protoDynamodbKvResponseData status buf = some data ∧
        callbackData (some data) = ⟨status, none, 0, none⟩) ∧
    (∀ buf : List UInt8, 8 ≤ buf.length → be32dec buf = 0 →
      buf.length ≠ 8 + be32dec (buf.drop 4) → (callbackData (some buf)).failed = 1) :=
  ⟨fun _ hR => protoDynamodbKvRequestParse_clientRequest hR,
    fun _ _ h => requestBytes_of_parse h,
    fun _ hs => callbackStatus_responseStatus hs,
    fun _ h => ⟨_, protoDynamodbKvResponseData_zero h, callbackData_zero h⟩,
    fun _ buf hs => ⟨_, protoDynamodbKvResponseData_fail hs buf, callbackData_fail hs⟩,
    fun _ h8 h0 hne => callbackData_failed_of_length_ne h8 h0 hne⟩

/-- An ICAS of the key `k1` from the value `1 2` to `3 4 5` is sent and parses back as itself, and
a data response with the value `3 4 5` is passed up with its length. -/
theorem protoDynamodbKv_codecsAgree_icas :
    (∃ P, clientRequest ⟨.icas, [107, 49], [1, 2], [3, 4, 5]⟩ = .ok P ∧
      protoDynamodbKvRequestParse P = some ⟨.icas, [107, 49], [1, 2], [3, 4, 5]⟩) ∧
      ∃ data, protoDynamodbKvResponseData 0 [3, 4, 5] = some data ∧
        callbackData (some data) = ⟨0, some [3, 4, 5], 3, none⟩ := by
  obtain ⟨hreq, -, -, hdata, -, -⟩ := protoDynamodbKv_codecsAgree
  have hsend : ProtoDdbkvRequest.Sendable ⟨.icas, [107, 49], [1, 2], [3, 4, 5]⟩ :=
    ⟨by decide, by decide, by decide, by decide, by decide, by decide⟩
  exact ⟨hreq _ hsend, hdata [3, 4, 5] (by norm_num)⟩

end Kivaloo.DynamodbKv
