import Mathlib.Data.List.Basic

/-!
# A fragment of JSON over bytes

JSON texts made of objects, strings and the literals `true` and `false`, written without
whitespace, in ASCII: the fragment that request bodies built by splicing strings between fixed
pieces of text are in.  `parseValue` reads such a text (RFC 8259's grammar for these values,
with the escapes `\"`, `\\`, `\/`, `\b`, `\f`, `\n`, `\r` and `\t`); it returns `none` on text
outside the fragment, which includes malformed text.  `render` writes a value back, putting
its strings between quotes as they are, with no escaping.

The main result is the round trip `parseJson_render`: a value whose strings are `Plain`
(printable ASCII, no quote and no backslash) is read back from its rendering.  Since the parser
is a function, a text means at most one value: whatever a text that reads back as `v` was built
from, it means `v` and nothing else.
-/

namespace Kivaloo.Lib

/-- The bytes of an ASCII string literal. -/
def ascii (s : String) : List UInt8 := s.toList.map fun c => c.toNat.toUInt8

/-- A JSON value of the fragment: a string (as its bytes), a literal, or an object (its members
in order). -/
inductive JValue where
  | str (s : List UInt8)
  | bool (b : Bool)
  | obj (ms : List (List UInt8 × JValue))
  deriving Repr

namespace JValue

/-- The bytes an escape `\e` stands for. -/
def unescape (e : UInt8) : Option UInt8 :=
  if e = 34 ∨ e = 92 ∨ e = 47 then some e      -- `\"`, `\\`, `\/`
  else if e = 98 then some 8                    -- `\b`
  else if e = 102 then some 12                  -- `\f`
  else if e = 110 then some 10                  -- `\n`
  else if e = 114 then some 13                  -- `\r`
  else if e = 116 then some 9                   -- `\t`
  else none

/-- The rest of a string after its opening quote: its bytes, and the text after the closing
quote. -/
def parseString : List UInt8 → Option (List UInt8 × List UInt8)
  | [] => none
  | c :: cs =>
    if c = 34 then some ([], cs)
    else if c = 92 then
      match cs with
      | [] => none
      | e :: cs => (unescape e).bind fun b => (parseString cs).map fun (s, r) => (b :: s, r)
    -- control characters are not allowed in a string; beyond ASCII is outside the fragment
    else if c < 32 ∨ 128 ≤ c then none
    else (parseString cs).map fun (s, r) => (c :: s, r)

mutual

/-- A value at the front of the text, with `n` steps to read it in: the value and the text
after it. -/
def parseValue : ℕ → List UInt8 → Option (JValue × List UInt8)
  | 0, _ => none
  | _ + 1, [] => none
  | n + 1, c :: cs =>
    if c = 34 then (parseString cs).map fun (s, r) => (str s, r)
    else if c = 123 then
      match cs with
      | 125 :: r => some (obj [], r)
      | cs => (parseMembers n cs).map fun (ms, r) => (obj ms, r)
    else
      match c :: cs with
      | 116 :: 114 :: 117 :: 101 :: r => some (bool true, r)
      | 102 :: 97 :: 108 :: 115 :: 101 :: r => some (bool false, r)
      | _ => none

/-- The members of an object after its opening brace, through its closing brace. -/
def parseMembers : ℕ → List UInt8 → Option (List (List UInt8 × JValue) × List UInt8)
  | 0, _ => none
  | n + 1, cs =>
    match cs with
    | 34 :: cs =>
      match parseString cs with
      | some (name, 58 :: r) =>
        match parseValue n r with
        | some (v, 44 :: r) => (parseMembers n r).map fun (ms, r) => ((name, v) :: ms, r)
        | some (v, 125 :: r) => some ([(name, v)], r)
        | _ => none
      | _ => none
    | _ => none

end

/-- A whole text: one value and nothing after it. -/
def parseJson (t : List UInt8) : Option JValue :=
  match parseValue t.length t with
  | some (v, []) => some v
  | _ => none

mutual

/-- The text of a value, with its strings written between quotes as they are. -/
def render : JValue → List UInt8
  | str s => 34 :: s ++ [34]
  | bool true => [116, 114, 117, 101]
  | bool false => [102, 97, 108, 115, 101]
  | obj [] => [123, 125]
  | obj (m :: ms) => 123 :: renderMember m ++ renderRest ms

/-- The text of a member: its name and value. -/
def renderMember : List UInt8 × JValue → List UInt8
  | (name, v) => 34 :: name ++ 34 :: 58 :: render v

/-- The members after the first, each after a comma, and the closing brace. -/
def renderRest : List (List UInt8 × JValue) → List UInt8
  | [] => [125]
  | m :: ms => 44 :: renderMember m ++ renderRest ms

end

/-- A string that reads back as itself between quotes: printable ASCII, with no quote and no
backslash. -/
def isPlain (s : List UInt8) : Bool := s.all fun c => 32 ≤ c && c < 128 && c != 34 && c != 92

mutual

/-- Every string of a value, names included, is plain. -/
def allPlain : JValue → Bool
  | str s => isPlain s
  | bool _ => true
  | obj [] => true
  | obj (m :: ms) => memberPlain m && restPlain ms

/-- A member's name and value are plain. -/
def memberPlain : List UInt8 × JValue → Bool
  | (name, v) => isPlain name && allPlain v

/-- Every member of a list is plain. -/
def restPlain : List (List UInt8 × JValue) → Bool
  | [] => true
  | m :: ms => memberPlain m && restPlain ms

end

/-! ## Reading a rendering back -/

@[simp] theorem isPlain_nil : isPlain [] = true := rfl

@[simp] theorem isPlain_cons (c : UInt8) (s : List UInt8) :
    isPlain (c :: s) = (32 ≤ c && c < 128 && c != 34 && c != 92 && isPlain s) := by
  simp [isPlain, Bool.and_assoc]

theorem parseString_quote (r : List UInt8) : parseString (34 :: r) = some ([], r) := by
  rw [parseString.eq_def]
  simp

/-- A byte that is neither a quote, a backslash nor outside printable ASCII stands for itself. -/
theorem parseString_plainByte {c : UInt8} (cs : List UInt8) (h₁ : c ≠ 34) (h₂ : c ≠ 92)
    (h₃ : ¬(c < 32 ∨ 128 ≤ c)) :
    parseString (c :: cs) = (parseString cs).map fun (s, r) => (c :: s, r) := by
  rw [parseString.eq_def]
  simp only [if_neg h₁, if_neg h₂, if_neg h₃]

/-- A plain string reads back up to its closing quote. -/
theorem parseString_plain (s r : List UInt8) (h : isPlain s = true) :
    parseString (s ++ 34 :: r) = some (s, r) := by
  induction s with
  | nil => exact parseString_quote r
  | cons c s ih =>
    simp only [isPlain_cons, Bool.and_eq_true, decide_eq_true_eq, bne_iff_ne, ne_eq] at h
    obtain ⟨⟨⟨⟨h₁, h₂⟩, h₃⟩, h₄⟩, hs⟩ := h
    have hctl : ¬(c < 32 ∨ 128 ≤ c) := by
      simp only [UInt8.lt_iff_toNat_lt, UInt8.le_iff_toNat_le] at h₁ h₂ ⊢
      omega
    rw [List.cons_append, parseString_plainByte _ h₃ h₄ hctl, ih hs]
    rfl

@[simp] theorem length_renderMember (name : List UInt8) (v : JValue) :
    (renderMember (name, v)).length = name.length + (render v).length + 3 := by
  simp only [renderMember, List.length_cons, List.length_append]
  omega

/-- The round trip, by induction on the steps the parser is given: with as many steps as the
text has bytes, a plain value and a plain list of members read back. -/
theorem parse_render (n : ℕ) :
    (∀ (v : JValue) (rest : List UInt8), allPlain v = true → (render v).length ≤ n →
      parseValue n (render v ++ rest) = some (v, rest)) ∧
    (∀ (m : List UInt8 × JValue) (ms : List (List UInt8 × JValue)) (rest : List UInt8),
      memberPlain m = true → restPlain ms = true →
      (renderMember m ++ renderRest ms).length ≤ n →
      parseMembers n (renderMember m ++ renderRest ms ++ rest) = some (m :: ms, rest)) := by
  induction n with
  | zero =>
    refine ⟨fun v rest _ hlen => ?_, fun m ms rest _ _ hlen => ?_⟩
    · -- every rendering has a byte
      cases v with
      | str s => simp [render] at hlen
      | bool b => cases b <;> simp [render] at hlen
      | obj ms => cases ms <;> simp [render] at hlen
    · obtain ⟨name, v⟩ := m
      simp at hlen
  | succ n ih =>
    obtain ⟨ihv, ihm⟩ := ih
    refine ⟨fun v rest hv hlen => ?_, fun m ms rest hm hms hlen => ?_⟩
    · cases v with
      | str s =>
        have hs := parseString_plain s rest hv
        simp only [render, List.cons_append, List.append_assoc]
        simp [parseValue, hs]
      | bool b => cases b <;> rfl
      | obj ms =>
        cases ms with
        | nil => rfl
        | cons m ms =>
          simp only [allPlain, Bool.and_eq_true] at hv
          obtain ⟨name, v⟩ := m
          simp only [render, List.length_cons, List.length_append] at hlen
          have hmem := ihm (name, v) ms rest hv.1 hv.2 (by simp only [List.length_append]; omega)
          simp only [render, renderMember, List.cons_append, List.append_assoc] at hmem ⊢
          simp [parseValue, hmem]
    · obtain ⟨name, v⟩ := m
      simp only [memberPlain, Bool.and_eq_true] at hm
      simp only [List.length_append, length_renderMember] at hlen
      have hval := ihv v (renderRest ms ++ rest) hm.2 (by omega)
      have hname := parseString_plain name (58 :: (render v ++ (renderRest ms ++ rest))) hm.1
      simp only [renderMember, List.cons_append, List.append_assoc]
      simp only [parseMembers, hname]
      -- after the name and the colon comes the value, then a comma or the closing brace
      cases ms with
      | nil =>
        simp only [renderRest, List.cons_append, List.nil_append] at hval ⊢
        simp [hval]
      | cons m' ms' =>
        simp only [restPlain, Bool.and_eq_true] at hms
        simp only [renderRest, List.length_cons, List.length_append] at hlen
        have hnext := ihm m' ms' rest hms.1 hms.2 (by simp only [List.length_append]; omega)
        simp only [renderRest, List.cons_append, List.append_assoc] at hval hnext ⊢
        simp [hval, hnext]

/-- A plain value reads back from its text. -/
theorem parseJson_render (v : JValue) (h : allPlain v = true) : parseJson (render v) = some v := by
  have hv := (parse_render (render v).length).1 v [] h (Nat.le_refl _)
  rw [List.append_nil] at hv
  simp [parseJson, hv]

end JValue

end Kivaloo.Lib
