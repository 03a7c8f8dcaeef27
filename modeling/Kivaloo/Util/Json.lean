import Mathlib
import Kivaloo.Lib.Json

/-!
# Finding a member of a JSON object (libcperciva/util/json.c)

`json_find(buf, end, s)` scans the object at `buf` for the member named `s` and returns a pointer
to its value, or `end`.  It skips the values of the other members with `skip_value`, which
recurses into arrays and objects.  The scan works on raw pointers, so the model keeps the buffer
and positions in it (`end` is its length): a read at a position outside the buffer is the error
`ScanError.oob`, after which the behaviour of the C code is undefined, and the model stops.
`skip_value` recurses as deep as the text nests; the model counts its steps with fuel, and
`ScanError.noFuel` is its own: `jsonFind_reaches` shows that the fuel `json_find` is given never
runs out, on any buffer.

`skip_string` steps past the opening quote without looking at it.  `skip_object` calls it again
after each comma, and when the comma is the last byte of the buffer the scan goes on one past
`end` and reads there: `json_find` on an object cut off after a comma inside a member it skips
reads outside the buffer (the example after `jsonFind_reaches`).
-/

namespace Kivaloo.Util

open Kivaloo.Lib

/-- Why a scan stopped without a position: a read outside the buffer, or the model's fuel ran
out. -/
inductive ScanError
  | oob
  | noFuel
deriving DecidableEq, Repr

/-- A read of `buf[p]`. -/
def rd (buf : List UInt8) (p : ℕ) : Except ScanError UInt8 :=
  match buf[p]? with
  | some c => .ok c
  | none => .error .oob

/-- The bytes `skip_ws` skips: tab, newline, carriage return and space. -/
def isWs (c : UInt8) : Bool := c = 0x09 || c = 0x0A || c = 0x0D || c = 0x20

/-- `strchr(numchars, c) != NULL`: the bytes a number is made of, and the NUL byte, which
`strchr` finds as the end of `numchars`. -/
def isNumchar (c : UInt8) : Bool := c = 0 || c ∈ ascii "+-0123456789.eE"

/-- `skip_ws(buf, end)`: past the whitespace from `p`, reading only while `p < end`. -/
def skipWs (buf : List UInt8) (p : ℕ) : ℕ := p + ((buf.drop p).takeWhile isWs).length

/-- `skip_literal(buf, end)`: past `false`, `null` or `true`, or `end`. -/
def skipLiteral (buf : List UInt8) (p : ℕ) : ℕ :=
  if 5 ≤ buf.length - p ∧ (buf.drop p).take 5 = ascii "false" then p + 5
  else if 4 ≤ buf.length - p ∧ (buf.drop p).take 4 = ascii "null" then p + 4
  else if 4 ≤ buf.length - p ∧ (buf.drop p).take 4 = ascii "true" then p + 4
  else buf.length

/-- The loop of `skip_string` over the bytes after the opening quote: how many it consumes, up
to and including the closing quote; an escape `\u` takes four more bytes if there are four. -/
def skipStringLoop : List UInt8 → ℕ
  | [] => 0
  | 34 :: _ => 1
  | [92] => 1
  | 92 :: 117 :: _ :: _ :: _ :: _ :: r => 6 + skipStringLoop r
  | 92 :: 117 :: _ => 2
  | 92 :: _ :: r => 2 + skipStringLoop r
  | _ :: r => 1 + skipStringLoop r

/-- `skip_string(buf, end)`: `buf++` past the opening quote, unchecked, then the loop. -/
def skipString (buf : List UInt8) (p : ℕ) : ℕ := p + 1 + skipStringLoop (buf.drop (p + 1))

/-- `skip_number(buf, end)`. -/
def skipNumber (buf : List UInt8) (p : ℕ) : ℕ :=
  p + ((buf.drop p).takeWhile isNumchar).length

mutual

/-- `skip_value(buf, end)` at `p`, with `n` steps. -/
def skipValue : ℕ → List UInt8 → ℕ → Except ScanError ℕ
  | 0, _, _ => .error .noFuel
  | n + 1, buf, p =>
    if p = buf.length then .ok buf.length
    else do
      let c ← rd buf p
      if c = 102 ∨ c = 110 ∨ c = 116 then pure (skipLiteral buf p)   -- 'f', 'n', 't'
      else if c = 34 then pure (skipString buf p)
      else if c = 91 then skipArray n buf p                            -- '['
      else if c = 123 then skipObject n buf p                          -- '{'
      else if isNumchar c then pure (skipNumber buf p)
      else pure buf.length
termination_by structural n => n

/-- `skip_array(buf, end)`: past the `[`, and an empty array or the entries. -/
def skipArray : ℕ → List UInt8 → ℕ → Except ScanError ℕ
  | 0, _, _ => .error .noFuel
  | n + 1, buf, p =>
    let q := skipWs buf (p + 1)
    if q = buf.length then .ok buf.length
    else do
      let c ← rd buf q
      if c = 93 then pure (q + 1) else skipArrayLoop n buf q    -- ']'
termination_by structural n => n

/-- The loop of `skip_array` over its entries. -/
def skipArrayLoop : ℕ → List UInt8 → ℕ → Except ScanError ℕ
  | 0, _, _ => .error .noFuel
  | n + 1, buf, p => do
    let q := skipWs buf (← skipValue n buf p)
    if q = buf.length then pure buf.length
    else
      let c ← rd buf q
      if c = 93 then pure (q + 1)
      else if c ≠ 44 then pure buf.length                        -- ','
      else skipArrayLoop n buf (q + 1)
termination_by structural n => n

/-- `skip_object(buf, end)`: past the `{`, and an empty object or the members. -/
def skipObject : ℕ → List UInt8 → ℕ → Except ScanError ℕ
  | 0, _, _ => .error .noFuel
  | n + 1, buf, p =>
    let q := skipWs buf (p + 1)
    if q = buf.length then .ok buf.length
    else do
      let c ← rd buf q
      if c = 125 then pure (q + 1) else skipObjectLoop n buf q   -- '}'
termination_by structural n => n

/-- The loop of `skip_object` over its members: a string, a colon, a value, and a comma or the
closing brace. -/
def skipObjectLoop : ℕ → List UInt8 → ℕ → Except ScanError ℕ
  | 0, _, _ => .error .noFuel
  | n + 1, buf, p => do
    let q := skipWs buf (skipString buf p)
    if q = buf.length then pure buf.length
    else
      let c ← rd buf q
      if c ≠ 58 then pure buf.length                             -- ':'
      else
        let r := skipWs buf (← skipValue n buf (skipWs buf (q + 1)))
        if r = buf.length then pure buf.length
        else
          let c ← rd buf r
          if c = 125 then pure (r + 1)
          else if c ≠ 44 then pure buf.length
          else skipObjectLoop n buf (r + 1)
termination_by structural n => n

end

/-- The loop of `match_str` over the bytes after the opening quote of a name, against the name
`s` that is left, with `foundit`: the position after the closing quote (or `end`) and whether
the name is `s`.  `len` is the length of the buffer, so a position is `len` less the bytes
left. -/
def matchStrLoop (len : ℕ) : List UInt8 → List UInt8 → Bool → ℕ × Bool
  | [], _, found => (len, found)
  | 34 :: r, s, found => (len - r.length, found && s.isEmpty)
  | [92], _, found => (len, found)
  | 92 :: 117 :: _ :: _ :: _ :: _ :: r, s, _ => matchStrLoop len r s.tail false
  | 92 :: 117 :: _, _, found => (len, found)
  | 92 :: e :: r, s, found =>
    match JValue.unescape e with
    | some ch => matchStrLoop len r s.tail (found && s.headD 0 == ch)
    | none => (len, false)
  | ch :: r, s, found => matchStrLoop len r s.tail (found && s.headD 0 == ch)

/-- `match_str(buf, end, s, &foundit)` from position `p`. -/
def matchStr (buf : List UInt8) (p : ℕ) (s : List UInt8) : ℕ × Bool :=
  matchStrLoop buf.length (buf.drop p) s true

/-- `SCAN(buf, end, ch)`: past whitespace and the byte `ch`; `end` where the buffer ends first or
the byte is another. -/
def scan (buf : List UInt8) (p : ℕ) (ch : UInt8) : Except ScanError (Option ℕ) := do
  let q := skipWs buf p
  if q = buf.length then pure none
  else
    let c ← rd buf q
    if c ≠ ch then pure none else pure (some (q + 1))

/-- The loop of `json_find` over the members of the object, from after its `{`. -/
def jsonFindLoop : ℕ → List UInt8 → ℕ → List UInt8 → Except ScanError ℕ
  | 0, _, _, _ => .error .noFuel
  | n + 1, buf, p, s => do
    let some p ← scan buf p 34 | pure buf.length                 -- '"'
    let (p, foundit) := matchStr buf p s
    let some p ← scan buf p 58 | pure buf.length                 -- ':'
    let p := skipWs buf p
    if foundit then pure p
    else
      let some p ← scan buf (← skipValue n buf p) 44 | pure buf.length
      jsonFindLoop n buf p s

/-- `json_find(buf, end, s)` with the object at position `p`, and fuel for three steps per byte
and one more: `skip_value`, `skip_array` and its loop each take one at a `[`. -/
def jsonFind (buf : List UInt8) (p : ℕ) (s : List UInt8) : Except ScanError ℕ := do
  let some p ← scan buf p 123 | pure buf.length                  -- '{'
  jsonFindLoop (3 * buf.length + 1) buf p s

/-! ## Where a scan stops

`Reaches P x`: the scan `x` stops at a position with `P`, or at a read outside the buffer, and
never for want of fuel.  The rules below push it through the binds of the model; with them the
fuel of `jsonFind` is shown to suffice for every buffer (`jsonFind_reaches`). -/

/-- The result of a scan has `P`, or is a read outside the buffer. -/
def Reaches {α : Type} (P : α → Prop) : Except ScanError α → Prop
  | .ok r => P r
  | .error e => e = .oob

section Reaches
variable {α β : Type} {P Q : α → Prop}

@[simp] theorem ok_bind {b : β} {f : β → Except ScanError α} : (Except.ok b >>= f) = f b := rfl
@[simp] theorem error_bind {e : ScanError} {f : β → Except ScanError α} :
    (Except.error e >>= f) = .error e := rfl

@[simp] theorem reaches_ok {a : α} : Reaches P (.ok a) ↔ P a := Iff.rfl
@[simp] theorem reaches_pure {a : α} : Reaches P (pure a) ↔ P a := Iff.rfl
@[simp] theorem reaches_oob : Reaches P (.error .oob) := rfl

theorem Reaches.bind {x : Except ScanError β} {Q : β → Prop} {f : β → Except ScanError α}
    (hx : Reaches Q x) (hf : ∀ b, Q b → Reaches P (f b)) : Reaches P (x >>= f) := by
  cases x with
  | error e => exact hx
  | ok b => exact hf b hx

theorem Reaches.mono {x : Except ScanError α} (hx : Reaches P x) (h : ∀ a, P a → Q a) :
    Reaches Q x := by
  cases x with
  | error e => exact hx
  | ok a => exact h a hx

end Reaches

variable {buf : List UInt8}

theorem reaches_rd (p : ℕ) : Reaches (fun _ => p < buf.length) (rd buf p) := by
  unfold rd
  split
  · rename_i c h
    exact (List.getElem?_eq_some_iff.mp h).1
  · rfl

theorem rd_of_lt {p : ℕ} (h : p < buf.length) : rd buf p = .ok buf[p] := by
  simp [rd, h]

theorem rd_of_le {p : ℕ} (h : buf.length ≤ p) : rd buf p = .error .oob := by
  simp [rd, h]

theorem le_skipWs (buf : List UInt8) (p : ℕ) : p ≤ skipWs buf p := Nat.le_add_right _ _

theorem skipWs_le {p : ℕ} (h : p ≤ buf.length) : skipWs buf p ≤ buf.length := by
  have := ((buf.drop p).takeWhile_sublist isWs).length_le
  simp only [List.length_drop] at this
  unfold skipWs
  omega

theorem reaches_scan (p : ℕ) (ch : UInt8) :
    Reaches (fun o => ∀ q, o = some q → p < q ∧ q ≤ buf.length) (scan buf p ch) := by
  simp only [scan]
  split_ifs with h
  · simp
  · refine (reaches_rd _).bind fun c hc => ?_
    split_ifs
    · simp
    · have := le_skipWs buf p
      simp
      omega

theorem le_skipLiteral {p : ℕ} (h : p ≤ buf.length) : p ≤ skipLiteral buf p := by
  unfold skipLiteral
  split_ifs <;> omega

theorem lt_skipString (buf : List UInt8) (p : ℕ) : p < skipString buf p := by
  unfold skipString
  omega

theorem le_skipNumber {p : ℕ} : p ≤ skipNumber buf p := Nat.le_add_right _ _

/-- The skips never run out of fuel that gives three steps to each byte left: `skip_value`,
`skip_array` and the loop over its entries each take one at a `[`, and the loops take a byte of
their own before they go round again.  They stop at a position no earlier than where they start,
or at a read outside the buffer.  One induction on the fuel carries all five functions, each case
following the branches of its function. -/
theorem skip_reaches (n : ℕ) :
    (∀ p, 3 * (buf.length - p) + 1 ≤ n → Reaches (p ≤ ·) (skipValue n buf p)) ∧
    (∀ p, p < buf.length → 3 * (buf.length - p) ≤ n → Reaches (p ≤ ·) (skipArray n buf p)) ∧
    (∀ p, 3 * (buf.length - p) + 2 ≤ n → Reaches (p ≤ ·) (skipArrayLoop n buf p)) ∧
    (∀ p, p < buf.length → 3 * (buf.length - p) ≤ n → Reaches (p ≤ ·) (skipObject n buf p)) ∧
    (∀ p, 3 * (buf.length - p) + 2 ≤ n → Reaches (p ≤ ·) (skipObjectLoop n buf p)) := by
  induction n with
  | zero => refine ⟨?_, ?_, ?_, ?_, ?_⟩ <;> intros <;> omega
  | succ n ih =>
    obtain ⟨hV, hA, hAL, hO, hOL⟩ := ih
    refine ⟨fun p hn => ?_, fun p hp hn => ?_, fun p hn => ?_, fun p hp hn => ?_, fun p hn => ?_⟩
    · simp only [skipValue]
      split_ifs with hend
      · simp [hend]
      · refine (reaches_rd p).bind fun c hc => ?_
        split_ifs
        · exact le_skipLiteral hc.le
        · exact (lt_skipString buf p).le
        · exact hA p hc (by omega)
        · exact hO p hc (by omega)
        · exact le_skipNumber
        · simp only [reaches_pure]
          omega
    · simp only [skipArray]
      have hq := le_skipWs buf (p + 1)
      split_ifs with hend
      · simp only [reaches_ok]
        omega
      · refine (reaches_rd _).bind fun c hc => ?_
        split_ifs
        · simp only [reaches_pure]
          omega
        · exact (hAL _ (by omega)).mono fun r hr => by omega
    · simp only [skipArrayLoop]
      refine (hV p (by omega)).bind fun r hr => ?_
      have hq := le_skipWs buf r
      split_ifs with hend
      · simp only [reaches_pure]
        omega
      · refine (reaches_rd _).bind fun c hc => ?_
        split_ifs
        · simp only [reaches_pure]
          omega
        · simp only [reaches_pure]
          omega
        · exact (hAL _ (by omega)).mono fun r hr => by omega
    · simp only [skipObject]
      have hq := le_skipWs buf (p + 1)
      split_ifs with hend
      · simp only [reaches_ok]
        omega
      · refine (reaches_rd _).bind fun c hc => ?_
        split_ifs
        · simp only [reaches_pure]
          omega
        · exact (hOL _ (by omega)).mono fun r hr => by omega
    · simp only [skipObjectLoop]
      have h1 := lt_skipString buf p
      have h2 := le_skipWs buf (skipString buf p)
      split_ifs with hend
      · simp only [reaches_pure]
        omega
      · refine (reaches_rd _).bind fun c hc => ?_
        split_ifs
        · simp only [reaches_pure]
          omega
        · have h3 := le_skipWs buf (skipWs buf (skipString buf p) + 1)
          refine (hV _ (by omega)).bind fun r hr => ?_
          have h4 := le_skipWs buf r
          split_ifs
          · simp only [reaches_pure]
            omega
          · refine (reaches_rd _).bind fun c hc' => ?_
            split_ifs
            · simp only [reaches_pure]
              omega
            · simp only [reaches_pure]
              omega
            · exact (hOL _ (by omega)).mono fun r hr => by omega

theorem le_matchStrLoop (len : ℕ) (l s : List UInt8) (found : Bool) :
    len - l.length ≤ (matchStrLoop len l s found).1 := by
  fun_induction matchStrLoop len l s found <;> simp_all <;> omega


theorem le_matchStr {p : ℕ} (h : p ≤ buf.length) (s : List UInt8) : p ≤ (matchStr buf p s).1 := by
  have := le_matchStrLoop buf.length (buf.drop p) s true
  rw [List.length_drop] at this
  unfold matchStr
  omega

/-- `json_find` stops inside the buffer or at its end, or at a read outside it: each member takes
a quote and a colon before `skip_value`, and a comma after it. -/
theorem jsonFindLoop_reaches (s : List UInt8) : ∀ n p, 3 * (buf.length - p) + 1 ≤ n →
    Reaches (· ≤ buf.length) (jsonFindLoop n buf p s)
  | 0, p, hn => by omega
  | n + 1, p, hn => by
    simp only [jsonFindLoop]
    refine (reaches_scan p 34).bind fun o ho => ?_
    rcases o with _ | p1
    · simp
    · obtain ⟨hp1, hp1len⟩ := ho p1 rfl
      have h2 := le_matchStr hp1len s
      dsimp only
      refine (reaches_scan _ 58).bind fun o ho => ?_
      rcases o with _ | p3
      · simp
      · obtain ⟨hp3, hp3len⟩ := ho p3 rfl
        have h4 := le_skipWs buf p3
        dsimp only
        split_ifs
        · exact skipWs_le hp3len
        · refine ((skip_reaches n).1 _ (by omega)).bind fun r hr => ?_
          refine (reaches_scan r 44).bind fun o ho => ?_
          rcases o with _ | p5
          · simp
          · obtain ⟨hp5, -⟩ := ho p5 rfl
            exact jsonFindLoop_reaches s n p5 (by omega)

theorem jsonFind_reaches (buf : List UInt8) (p : ℕ) (s : List UInt8) :
    Reaches (· ≤ buf.length) (jsonFind buf p s) := by
  simp only [jsonFind]
  refine (reaches_scan p 123).bind fun o ho => ?_
  rcases o with _ | p1
  · simp
  · exact jsonFindLoop_reaches s _ p1 (by omega)

/-- An object whose second member is cut off after a comma: scanning past the first member's
value, `skip_object` calls `skip_string` at `end`, which steps to `end + 1`, and the next read
is there. -/
example :
    jsonFind (ascii "\x7b\"X\":\x7b\"a\":1,") 0 (ascii "__type") = .error .oob := by
  -- the bytes first: evaluating `ascii` at every read of the buffer does not fit in memory
  rw [show ascii "\x7b\"X\":\x7b\"a\":1," = [123, 34, 88, 34, 58, 123, 34, 97, 34, 58, 49, 44] by
    decide]
  decide

end Kivaloo.Util
