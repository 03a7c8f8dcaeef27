import Kivaloo.Util.B64

/-!
# DynamoDB-KV requests (lib/proto_dynamodb_kv, lib/dynamodb/dynamodb_kv.c, dynamodb-kv/dispatch.c)

kivaloo-dynamodb-kv reads request packets (`protoDynamodbKvRequestParse`) and turns each into
the body of a DynamoDB request (`requestBody`, the switch of `dispatch.c`).  The packet parser
accepts any key of up to 255 bytes without a NUL.  The body builders copy the table name, the key
and the base-64 text of the values between fixed pieces of JSON text, with no escaping:
`requestBody_eq_render` says that a body is exactly the rendering of the object the comments in
`dynamodb_kv.c` document (`documentedBody`), with the strings written as they are.

Where the table name and the key are plain JSON string text (printable ASCII, no quote and no
backslash), the body therefore reads as the documented object (`parseJson_requestBody`).  A key
with a quote in it is accepted as well, and ends the key's string early: the PUT body for the key
`a"},"X":{"S":"b` reads as an item with the key `a` and an extra attribute `X`
(`parseJson_injectedRequest`).
-/

namespace Kivaloo.DynamodbKv

open Kivaloo.Lib JValue Kivaloo.Util

/-! ## Request packets (proto_dynamodb_kv_server.c) -/

/-- The request types. -/
inductive ProtoDdbkvType
  | put
  | icas
  | create
  | get
  | getc
  | delete
  deriving DecidableEq, Repr

/-- The type with the code `t` (`PROTO_DDBKV_PUT` and so on). -/
def ProtoDdbkvType.ofCode (t : ℕ) : Option ProtoDdbkvType :=
  if t = 0x00010100 then some .put
  else if t = 0x00010101 then some .icas
  else if t = 0x00010102 then some .create
  else if t = 0x00010110 then some .get
  else if t = 0x00010111 then some .getc
  else if t = 0x00010120 then some .delete
  else none

/-- `struct proto_ddbkv_request` without its ID: the type, the key, and the values (`buf` for
PUT, CREATE and ICAS, `buf2` for ICAS; empty where the type has none). -/
structure ProtoDdbkvRequest where
  type : ProtoDdbkvType
  key : List UInt8
  buf : List UInt8
  buf2 : List UInt8
  deriving DecidableEq, Repr

/-- `be32dec(p)`: the big-endian number in the first four bytes. -/
def be32dec : List UInt8 → ℕ
  | p0 :: p1 :: p2 :: p3 :: _ => p0.toNat * 2 ^ 24 + p1.toNat * 2 ^ 16 + p2.toNat * 2 ^ 8 + p3.toNat
  | _ => 0

/-- A value: its 32-bit length, then that many bytes; the value and the bytes after it. -/
def readValue (P : List UInt8) : Option (List UInt8 × List UInt8) :=
  if P.length < 4 then none
  else
    let len := be32dec P
    let P := P.drop 4
    if P.length < len then none else some (P.take len, P.drop len)

/-- The values a request of type `t` carries ("PUT and CREATE requests have one value, while
ICAS requests have two values"), and the bytes after them. -/
def readValues (t : ProtoDdbkvType) (P : List UInt8) :
    Option (List UInt8 × List UInt8 × List UInt8) :=
  match t with
  | .put | .create => (readValue P).map fun (v, r) => (v, [], r)
  | .icas =>
    match readValue P with
    | none => none
    | some (v, r) => (readValue r).map fun (v2, r) => (v, v2, r)
  | .get | .getc | .delete => some ([], [], P)

/-- `proto_dynamodb_kv_request_parse(P, R)` of the packet data `P`: the type, the key (its length
byte, then the key, which may not hold a NUL), the values, and nothing after them. -/
def protoDynamodbKvRequestParse (P : List UInt8) : Option ProtoDdbkvRequest :=
  if P.length < 4 then none
  else
    match P.drop 4 with
    | [] => none
    | buflen :: rest =>
      let key := rest.take buflen.toNat
      if rest.length < buflen.toNat ∨ 0 ∈ key then none
      else
        match ProtoDdbkvType.ofCode (be32dec P) with
        | none => none
        | some t =>
          match readValues t (rest.drop buflen.toNat) with
          -- "Check that we processed the entire request record."
          | some (buf, buf2, []) => some ⟨t, key, buf, buf2⟩
          | _ => none

/-! ## Request bodies (dynamodb_kv.c) -/

/-- `dynamodb_kv_put(table, key, buf, len)`. -/
def dynamodbKvPut (table key buf : List UInt8) : List UInt8 :=
  ascii "\x7b\"TableName\":\"" ++ table ++ ascii "\",\"Item\":\x7b\"K\":\x7b\"S\":\"" ++ key ++
    ascii "\"\x7d,\"V\":\x7b\"B\":\"" ++ b64encode buf ++
    ascii "\"\x7d\x7d,\"ReturnConsumedCapacity\":\"TOTAL\"\x7d"

/-- `dynamodb_kv_icas(table, key, buf, len, buf2, len2)`. -/
def dynamodbKvIcas (table key buf buf2 : List UInt8) : List UInt8 :=
  ascii "\x7b\"TableName\":\"" ++ table ++ ascii "\",\"Item\":\x7b\"K\":\x7b\"S\":\"" ++ key ++
    ascii "\"\x7d,\"V\":\x7b\"B\":\"" ++ b64encode buf2 ++
    ascii "\"\x7d\x7d,\"ConditionExpression\":\"(V=:old)OR(V=:new)\"," ++
    ascii "\"ExpressionAttributeValues\":\x7b\":old\":\x7b\"B\":\"" ++ b64encode buf ++
    ascii "\"\x7d,\":new\":\x7b\"B\":\"" ++ b64encode buf2 ++
    ascii "\"\x7d\x7d,\"ReturnConsumedCapacity\":\"TOTAL\"\x7d"

/-- `dynamodb_kv_create(table, key, buf, len)`. -/
def dynamodbKvCreate (table key buf : List UInt8) : List UInt8 :=
  ascii "\x7b\"TableName\":\"" ++ table ++ ascii "\",\"Item\":\x7b\"K\":\x7b\"S\":\"" ++ key ++
    ascii "\"\x7d,\"V\":\x7b\"B\":\"" ++ b64encode buf ++
    ascii "\"\x7d\x7d,\"ConditionExpression\":\"(attribute_not_exists(V))OR(V=:new)\"," ++
    ascii "\"ExpressionAttributeValues\":\x7b\":new\":\x7b\"B\":\"" ++ b64encode buf ++
    ascii "\"\x7d\x7d,\"ReturnConsumedCapacity\":\"TOTAL\"\x7d"

/-- The shape `dynamodb_kv_get`, `dynamodb_kv_getc` and `dynamodb_kv_delete` share: the table
and the key between three pieces of text. -/
def keyRequest (s1 s2 s3 table key : List UInt8) : List UInt8 := s1 ++ table ++ s2 ++ key ++ s3

/-- `dynamodb_kv_get(table, key)`. -/
def dynamodbKvGet (table key : List UInt8) : List UInt8 :=
  keyRequest (ascii "\x7b\"TableName\":\"") (ascii "\",\"Key\":\x7b\"K\":\x7b\"S\":\"")
    (ascii "\"\x7d\x7d,\"ReturnConsumedCapacity\":\"TOTAL\"\x7d") table key

/-- `dynamodb_kv_getc(table, key)`. -/
def dynamodbKvGetc (table key : List UInt8) : List UInt8 :=
  keyRequest (ascii "\x7b\"ConsistentRead\":true,\"TableName\":\"")
    (ascii "\",\"Key\":\x7b\"K\":\x7b\"S\":\"")
    (ascii "\"\x7d\x7d,\"ReturnConsumedCapacity\":\"TOTAL\"\x7d") table key

/-- `dynamodb_kv_delete(table, key)`. -/
def dynamodbKvDelete (table key : List UInt8) : List UInt8 :=
  keyRequest (ascii "\x7b\"TableName\":\"") (ascii "\",\"Key\":\x7b\"K\":\x7b\"S\":\"")
    (ascii "\"\x7d\x7d,\"ReturnConsumedCapacity\":\"TOTAL\"\x7d") table key

/-- The body `dispatch.c` builds for the request `R` on the table `table`. -/
def requestBody (table : List UInt8) (R : ProtoDdbkvRequest) : List UInt8 :=
  match R.type with
  | .put => dynamodbKvPut table R.key R.buf
  | .icas => dynamodbKvIcas table R.key R.buf R.buf2
  | .create => dynamodbKvCreate table R.key R.buf
  | .get => dynamodbKvGet table R.key
  | .getc => dynamodbKvGetc table R.key
  | .delete => dynamodbKvDelete table R.key

/-! ## The documented bodies -/

/-- `{"S": s}`: a string attribute. -/
def sAttr (s : List UInt8) : JValue := obj [(ascii "S", str s)]

/-- `{"B": b}`: a binary attribute, in base 64. -/
def bAttr (b : List UInt8) : JValue := obj [(ascii "B", str b)]

/-- `"TableName": table`. -/
def tableName (table : List UInt8) : List UInt8 × JValue := (ascii "TableName", str table)

/-- `"ReturnConsumedCapacity": "TOTAL"`. -/
def returnConsumedCapacity : List UInt8 × JValue :=
  (ascii "ReturnConsumedCapacity", str (ascii "TOTAL"))

/-- `"Item": {"K": {"S": key}, "V": {"B": v}}`. -/
def item (key v : List UInt8) : List UInt8 × JValue :=
  (ascii "Item", obj [(ascii "K", sAttr key), (ascii "V", bAttr v)])

/-- `"Key": {"K": {"S": key}}`. -/
def itemKey (key : List UInt8) : List UInt8 × JValue := (ascii "Key", obj [(ascii "K", sAttr key)])

/-- The object each builder's comment documents, for the base-64 texts of the values. -/
def documentedBody (table : List UInt8) (R : ProtoDdbkvRequest) : JValue :=
  match R.type with
  | .put => obj [tableName table, item R.key (b64encode R.buf), returnConsumedCapacity]
  | .icas =>
    obj [tableName table, item R.key (b64encode R.buf2),
      (ascii "ConditionExpression", str (ascii "(V=:old)OR(V=:new)")),
      (ascii "ExpressionAttributeValues",
        obj [(ascii ":old", bAttr (b64encode R.buf)), (ascii ":new", bAttr (b64encode R.buf2))]),
      returnConsumedCapacity]
  | .create =>
    obj [tableName table, item R.key (b64encode R.buf),
      (ascii "ConditionExpression", str (ascii "(attribute_not_exists(V))OR(V=:new)")),
      (ascii "ExpressionAttributeValues", obj [(ascii ":new", bAttr (b64encode R.buf))]),
      returnConsumedCapacity]
  | .get | .delete => obj [tableName table, itemKey R.key, returnConsumedCapacity]
  | .getc => obj [(ascii "ConsistentRead", bool true), tableName table, itemKey R.key,
      returnConsumedCapacity]

/-! ## What a body reads as -/

/-- Every body is the documented object written out with its strings as they are. -/
theorem requestBody_eq_render (table : List UInt8) (R : ProtoDdbkvRequest) :
    requestBody table R = render (documentedBody table R) := by
  obtain ⟨t, key, buf, buf2⟩ := R
  cases t <;>
    simp [requestBody, documentedBody, dynamodbKvPut, dynamodbKvIcas, dynamodbKvCreate,
      dynamodbKvGet, dynamodbKvGetc, dynamodbKvDelete, keyRequest, render, renderMember,
      renderRest, tableName, returnConsumedCapacity, item, itemKey, sAttr, bAttr, ascii]

theorem allPlain_documentedBody {table : List UInt8} {R : ProtoDdbkvRequest}
    (ht : isPlain table = true) (hk : isPlain R.key = true) :
    allPlain (documentedBody table R) = true := by
  obtain ⟨t, key, buf, buf2⟩ := R
  -- the base-64 texts are plain whatever the values are
  cases t <;>
    simp [documentedBody, allPlain, memberPlain, restPlain, tableName, returnConsumedCapacity,
      item, itemKey, sAttr, bAttr, isPlain_b64encode, ht, hk, ascii]

/-- With a plain table name and a plain key, a body reads as the documented object. -/
theorem parseJson_requestBody {table : List UInt8} {R : ProtoDdbkvRequest}
    (ht : isPlain table = true) (hk : isPlain R.key = true) :
    parseJson (requestBody table R) = some (documentedBody table R) := by
  rw [requestBody_eq_render]
  exact parseJson_render _ (allPlain_documentedBody ht hk)

/-! ## A key with a quote -/

/-- A key that ends its string and the `K` attribute, and opens an attribute `X`:
`a"},"X":{"S":"b`. -/
def injectedKey : List UInt8 := ascii "a\"\x7d,\"X\":\x7b\"S\":\"b"

/-- A PUT packet for that key and the one-byte value 7: the type, the key's length and bytes,
the value's length and byte. -/
def injectedPacket : List UInt8 := [0, 1, 1, 0, 15] ++ injectedKey ++ [0, 0, 0, 1, 7]

/-- The request the packet carries. -/
def injectedRequest : ProtoDdbkvRequest := ⟨.put, injectedKey, [7], []⟩

/-- What its body on the table `table` reads as: an item with the key `a`, an attribute `X`,
and the value. -/
def injectedBody (table : List UInt8) : JValue :=
  obj [tableName table,
    (ascii "Item", obj [(ascii "K", sAttr (ascii "a")), (ascii "X", sAttr (ascii "b")),
      (ascii "V", bAttr (b64encode [7]))]),
    returnConsumedCapacity]

/-- The key has no NUL, so the parser accepts the packet. -/
theorem protoDynamodbKvRequestParse_injectedPacket :
    protoDynamodbKvRequestParse injectedPacket = some injectedRequest := by
  decide

theorem requestBody_injectedRequest (table : List UInt8) :
    requestBody table injectedRequest = render (injectedBody table) := by
  simp [requestBody, injectedRequest, dynamodbKvPut, injectedKey, injectedBody, render,
    renderMember, renderRest, tableName, returnConsumedCapacity, sAttr, bAttr, ascii]

theorem parseJson_injectedRequest {table : List UInt8} (ht : isPlain table = true) :
    parseJson (requestBody table injectedRequest) = some (injectedBody table) := by
  rw [requestBody_injectedRequest]
  refine parseJson_render _ ?_
  simp [injectedBody, allPlain, memberPlain, restPlain, tableName, returnConsumedCapacity, sAttr,
    bAttr, isPlain_b64encode, ht, ascii]

/-- It is not the documented item: its key is `a`, and it has an attribute more. -/
theorem injectedBody_ne (table : List UInt8) :
    injectedBody table ≠ documentedBody table injectedRequest := by
  simp [injectedBody, documentedBody, injectedRequest, item, injectedKey, sAttr, ascii]

theorem requestBody_keyInjection :
    (∀ table R, requestBody table R = render (documentedBody table R)) ∧
    (∀ table R, isPlain table = true → isPlain R.key = true →
      parseJson (requestBody table R) = some (documentedBody table R) ∧
        b64decode (b64encode R.buf) = some R.buf ∧ b64decode (b64encode R.buf2) = some R.buf2) ∧
    (∀ table, isPlain table = true →
      protoDynamodbKvRequestParse injectedPacket = some injectedRequest ∧
        parseJson (requestBody table injectedRequest) = some (injectedBody table) ∧
        injectedBody table ≠ documentedBody table injectedRequest) := by
  refine ⟨requestBody_eq_render, fun table R ht hk => ?_, fun table ht => ?_⟩
  · exact ⟨parseJson_requestBody ht hk, b64decode_b64encode R.buf, b64decode_b64encode R.buf2⟩
  · exact ⟨protoDynamodbKvRequestParse_injectedPacket, parseJson_injectedRequest ht,
      injectedBody_ne table⟩

/-- On the table `kivaloo-testing` of the perftests, the PUT for the key with a quote writes the
item `a`. -/
theorem requestBody_keyInjection_testing :
    isPlain (ascii "kivaloo-testing") = true ∧
      parseJson (requestBody (ascii "kivaloo-testing") injectedRequest) =
        some (injectedBody (ascii "kivaloo-testing")) := by
  have ht : isPlain (ascii "kivaloo-testing") = true := by decide
  exact ⟨ht, (requestBody_keyInjection.2.2 _ ht).2.1⟩

end Kivaloo.DynamodbKv
