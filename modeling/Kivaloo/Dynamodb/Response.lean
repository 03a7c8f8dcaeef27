import Mathlib
import Kivaloo.Util.Json
import Kivaloo.Util.B64

/-!
# Reading DynamoDB responses (lib/dynamodb)

`dynamodb_request_extracterror` reads the error string of an HTTP 400 response: the part of the
`__type` string after its `#`.  `dynamodb_kv_extractv` reads the value of a GetItem response, the
base64 string `Item.V.B`, and decodes it.  Both find their members with `json_find`, which says
that a member is absent by returning `end`.

`extracterror` reads `buf[0]` before it compares `buf` with `end`, so it reads one past the body
exactly when `json_find` finds no `__type` (or reads outside itself): on an empty body, whose
pointer is NULL, on `{}`, and on every body without the member
(`dynamodbRequestExtracterror_eq_oob_iff`).  Past that read both functions stay inside the
buffer, and what they return is as documented: an error string without a quote, and a value
that is the decoding of a quoted string of the response (`dynamodbRequestExtracterror_reaches`,
`dynamodbKvExtractv_reaches`).
-/

namespace Kivaloo.Dynamodb

open Kivaloo.Lib Kivaloo.Util

/-- The loop of `extracterror` that looks for the `#` inside the string: the bytes after it, or
none where the string or the buffer ends first. -/
def findHash : List UInt8 → Option (List UInt8)
  | [] => none
  | 34 :: _ => none
  | 35 :: r => some r
  | _ :: r => findHash r

/-- The loops of `extracterror` and `extractv` that look for the closing `"`: the bytes before
it, or none where the buffer ends first. -/
def takeQuoted : List UInt8 → Option (List UInt8)
  | [] => none
  | 34 :: _ => some []
  | c :: r => (takeQuoted r).map (c :: ·)

/-- The error string of a response without a valid one. -/
def errorNotSpecified : List UInt8 := ascii "ErrorNotSpecified"

/-- `dynamodb_request_extracterror(res, errstr)` on the body of the response.  An absent body
(`body == NULL`, `bodylen == 0`) is the empty buffer: every read falls outside it. -/
def dynamodbRequestExtracterror (body : List UInt8) : Except ScanError (List UInt8) := do
  let p ← jsonFind body 0 (ascii "__type")
  -- `buf[0]` is read before `buf` is compared with `end`
  let c ← rd body p
  if c ≠ 34 then return errorNotSpecified
  return ((findHash (body.drop (p + 1))).bind takeQuoted).getD errorNotSpecified

/-- `dynamodb_kv_extractv(inbuf, inlen, outbuf, outlen)`: the value, or none (`*outbuf` set to
NULL) where the response has none; `outlen` is the value's length. -/
def dynamodbKvExtractv (inbuf : Option (List UInt8)) :
    Except ScanError (Option (List UInt8)) := do
  let some buf := inbuf | return none
  let p ← jsonFind buf 0 (ascii "Item")
  let p ← jsonFind buf p (ascii "V")
  let p ← jsonFind buf p (ascii "B")
  if p = buf.length then return none
  let c ← rd buf p
  if c ≠ 34 then return none
  let some s := takeQuoted (buf.drop (p + 1)) | return none
  if s.length < 4 then return none
  let some v := b64decode s | return none
  -- `vlen >= (uint32_t)(-1)`
  if 2 ^ 32 - 1 ≤ v.length then return none
  return some v

/-! ## The string loops -/

/-- A quoted string is the bytes before a quote, and has none itself. -/
theorem takeQuoted_eq_some : ∀ {l s : List UInt8}, takeQuoted l = some s →
    34 ∉ s ∧ ∃ r, l = s ++ 34 :: r
  | [], _, h => by simp [takeQuoted] at h
  | c :: l, s, h => by
    by_cases h34 : c = 34
    · subst h34
      simp only [takeQuoted, Option.some.injEq] at h
      subst h
      exact ⟨List.not_mem_nil, l, rfl⟩
    · rw [takeQuoted] at h
      · obtain ⟨s', hs', rfl⟩ := Option.map_eq_some_iff.mp h
        obtain ⟨hnot, r, rfl⟩ := takeQuoted_eq_some hs'
        exact ⟨by simp [hnot, Ne.symm h34], r, rfl⟩
      · simpa

/-! ## The error string -/

/-- `extracterror` reads outside the body exactly when `json_find` does, or finds no `__type`:
its first read is then at `end`. -/
theorem dynamodbRequestExtracterror_eq_oob_iff (body : List UInt8) :
    dynamodbRequestExtracterror body = .error .oob ↔
      jsonFind body 0 (ascii "__type") = .error .oob ∨
        jsonFind body 0 (ascii "__type") = .ok body.length := by
  have hfind := jsonFind_reaches body 0 (ascii "__type")
  unfold dynamodbRequestExtracterror
  cases hj : jsonFind body 0 (ascii "__type") with
  | error e =>
    rw [hj] at hfind
    subst hfind
    simp only [error_bind, true_or]
  | ok p =>
    rw [hj] at hfind
    rcases Nat.lt_or_ge p body.length with hp | hp
    · -- a read inside the body, after which nothing fails
      simp only [ok_bind, rd_of_lt hp]
      split_ifs <;> simp [pure, Except.pure, hp.ne]
    · obtain rfl := Nat.le_antisymm hfind hp
      simp [rd_of_le le_rfl]

/-- What `extracterror` returns has no quote. -/
theorem dynamodbRequestExtracterror_reaches (body : List UInt8) :
    Reaches (fun e => 34 ∉ e) (dynamodbRequestExtracterror body) := by
  refine (jsonFind_reaches _ 0 _).bind fun p _ => (reaches_rd p).bind fun c _ => ?_
  have hdefault : 34 ∉ errorNotSpecified := by decide
  split_ifs
  · exact hdefault
  · simp only [reaches_pure]
    cases hs : (findHash (body.drop (p + 1))).bind takeQuoted with
    | none => exact hdefault
    | some s =>
      obtain ⟨r, -, hr⟩ := Option.bind_eq_some_iff.mp hs
      exact (takeQuoted_eq_some hr).1

/-! ## The value of a GetItem response -/

/-- A value `extractv` returns is the decoding of a string of at least four bytes that stands
between quotes in the response, and its length fits in a `uint32_t` below its largest value. -/
theorem dynamodbKvExtractv_reaches (inbuf : Option (List UInt8)) :
    Reaches (fun o => ∀ v, o = some v → ∃ buf s, inbuf = some buf ∧ s ++ [34] <:+: buf ∧
      34 ∉ s ∧ 4 ≤ s.length ∧ b64decode s = some v ∧ v.length < 2 ^ 32 - 1)
      (dynamodbKvExtractv inbuf) := by
  rcases inbuf with _ | buf
  · simp [dynamodbKvExtractv]
  refine (jsonFind_reaches _ 0 _).bind fun _ _ => (jsonFind_reaches _ _ _).bind fun _ _ =>
    (jsonFind_reaches _ _ _).bind fun p _ => ?_
  split_ifs
  · simp
  refine (reaches_rd p).bind fun c _ => ?_
  split_ifs
  · simp
  cases hs : takeQuoted (buf.drop (p + 1)) with
  | none => simp
  | some s =>
    obtain ⟨hnot, r, hr⟩ := takeQuoted_eq_some hs
    -- the string and its closing quote lie in the response
    have hinfix : s ++ [34] <:+: buf :=
      ⟨buf.take (p + 1), r, by
        simp only [List.append_assoc, List.singleton_append, ← hr, List.take_append_drop]⟩
    dsimp only
    split_ifs with hlen
    · simp
    cases hv : b64decode s with
    | none => simp
    | some v =>
      dsimp only
      split_ifs with hv'
      · simp
      · simp only [reaches_pure, Option.some.injEq, forall_eq']
        exact ⟨buf, s, rfl, hinfix, hnot, by omega, hv, by omega⟩

/-! ## Reading past the body -/

/-- `extracterror` reads one past the body of every HTTP 400 response in which `json_find` finds
no `__type`: an empty body, `{}`, or an error without the member; `extractv` reads past a
response cut off after a comma inside a member that `json_find` skips.  What the two return is as
documented. -/
theorem dynamodbRequestExtracterror_readsPastEnd :
    (∀ body, dynamodbRequestExtracterror body = .error .oob ↔
      jsonFind body 0 (ascii "__type") = .error .oob ∨
        jsonFind body 0 (ascii "__type") = .ok body.length) ∧
    dynamodbRequestExtracterror [] = .error .oob ∧
    dynamodbRequestExtracterror (ascii "\x7b\x7d") = .error .oob ∧
    dynamodbRequestExtracterror (ascii "\x7b\"message\":\"Bad\"\x7d") = .error .oob ∧
    dynamodbKvExtractv (some (ascii "\x7b\"Item\":\x7b\"X\":\x7b\"a\":1,")) = .error .oob ∧
    (∀ body, Reaches (fun e => 34 ∉ e) (dynamodbRequestExtracterror body)) ∧
    (∀ inbuf, Reaches (fun o => ∀ v, o = some v → ∃ buf s, inbuf = some buf ∧
      s ++ [34] <:+: buf ∧ 34 ∉ s ∧ 4 ≤ s.length ∧ b64decode s = some v ∧ v.length < 2 ^ 32 - 1)
      (dynamodbKvExtractv inbuf)) := by
  refine ⟨dynamodbRequestExtracterror_eq_oob_iff, ?_, ?_, ?_, ?_,
    dynamodbRequestExtracterror_reaches, dynamodbKvExtractv_reaches⟩
  -- each error response: `json_find` returns `end`; the bytes are written out first, so that
  -- `decide` does not evaluate `ascii` at every read
  · exact (dynamodbRequestExtracterror_eq_oob_iff []).mpr (.inr (by decide))
  · rw [show ascii "\x7b\x7d" = [123, 125] by decide]
    exact (dynamodbRequestExtracterror_eq_oob_iff _).mpr (.inr (by decide))
  · rw [show ascii "\x7b\"message\":\"Bad\"\x7d" =
      [123, 34, 109, 101, 115, 115, 97, 103, 101, 34, 58, 34, 66, 97, 100, 34, 125] by decide]
    exact (dynamodbRequestExtracterror_eq_oob_iff _).mpr (.inr (by decide))
  · rw [show ascii "\x7b\"Item\":\x7b\"X\":\x7b\"a\":1," =
      [123, 34, 73, 116, 101, 109, 34, 58, 123, 34, 88, 34, 58, 123, 34, 97, 34, 58, 49, 44] by
      decide]
    decide

end Kivaloo.Dynamodb
