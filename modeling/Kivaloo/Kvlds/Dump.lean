import Kivaloo.Kvlds.Key

/-!
# Dumping and undumping a store (kvlds-dump/main.c, kvlds-undump/main.c)

`kivaloo-kvlds-dump` lists every pair of a store (`kvlds_range`) and writes each one to
standard output: the key's length byte and bytes, then the value's (`dumpFormat`).  With `--fs`
it writes each pair to a directory of its own, as a file `k` and a file `v`.
`kivaloo-kvlds-undump` reads the pairs back in the same way and stores them
(`kvlds_multiset`).  On standard output the input may end only between two pairs.

Both tools check `fwrite(ptr, len, 1, f) == 1` and `fread(ptr, len, 1, f) == 1`.  Per ISO C, a
call with element size zero transfers nothing and returns 0, so an empty key or an empty value
makes either tool fail.  `kvldsDump_emptyPairs` states exactly where the round trip holds: for
stores with no empty key and no empty value, in both formats, and nowhere else.  For `--fs` the
round trip holds up to order, since `readdir` lists directories in any order.

Streams never fail here: every byte written is taken, and reads return what the input holds.
-/

namespace Kivaloo.Kvlds

open KVLDSKey

/-! ## The C library's streams -/

/-- `fwrite(ptr, size, 1, f)` of the `size` bytes `buf` to a stream that holds `out`: the
number of elements written and the stream after.  A call with element size zero writes nothing
and returns 0. -/
def fwrite (out buf : List UInt8) : ℕ × List UInt8 :=
  if buf.length = 0 then (0, out) else (1, out ++ buf)

/-- `fread(ptr, size, 1, f)` from a stream that holds the bytes `inp`: the number of elements
read, the bytes read, the rest of the stream, and whether the read met the end of the stream
(`feof`).  A call with element size zero reads nothing and returns 0. -/
def fread (inp : List UInt8) (size : ℕ) : ℕ × List UInt8 × List UInt8 × Bool :=
  if size = 0 then (0, [], inp, false)
  else if size ≤ inp.length then (1, inp.take size, inp.drop size, false)
  else (0, inp, [], true)

/-- `kvldskey_create(buf, len)` of the `len` bytes `buf`; `none` where
`assert(len <= UINT8_MAX)` fails. -/
def kvldskeyCreate (buf : List UInt8) : Option KVLDSKey :=
  if h : buf.length ≤ 255 then some ⟨buf, h⟩ else none

/-! ## Standard output -/

/-- `callback_pair` of kvlds-dump writing to standard output, which holds `out`: the key's
length byte and bytes, then the value's.  `none` where an `fwrite` does not return 1. -/
def dumpCallbackPair (out : List UInt8) (key value : KVLDSKey) : Option (List UInt8) :=
  match fwrite out [UInt8.ofNat key.len] with
  | (1, out) =>
    match fwrite out key.buf with
    | (1, out) =>
      match fwrite out [UInt8.ofNat value.len] with
      | (1, out) =>
        match fwrite out value.buf with
        | (1, out) => some out
        | _ => none
      | _ => none
    | _ => none
  | _ => none

/-- kvlds-dump: `kvlds_range` hands the pairs `ps` in order to `callback_pair`; the dump fails
at the first pair the callback fails on. -/
def kvldsDump : List (KVLDSKey × KVLDSKey) → List UInt8 → Option (List UInt8)
  | [], out => some out
  | (k, v) :: ps, out =>
    match dumpCallbackPair out k v with
    | none => none
    | some out => kvldsDump ps out

/-- `callback_pair` of kvlds-undump reading standard input: a pair and the rest of the input, or
no pair when the input ended before a length byte (`nomore`).  `none` where a read fails. -/
def undumpCallbackPair (inp : List UInt8) : Option (Option (KVLDSKey × KVLDSKey) × List UInt8) :=
  match fread inp 1 with
  | (1, lenbuf, inp, _) =>
    match fread inp (lenbuf.headD 0).toNat with
    | (1, kbuf, inp, _) =>
      match kvldskeyCreate kbuf with
      | none => none
      | some key =>
        match fread inp 1 with
        | (1, lenbuf, inp, _) =>
          match fread inp (lenbuf.headD 0).toNat with
          | (1, vbuf, inp, _) => (kvldskeyCreate vbuf).map fun value => (some (key, value), inp)
          | _ => none
        | _ => none
    | _ => none
  | (_, _, inp, eof) => if eof then some (none, inp) else none

/-- A successful `fread` takes the first `size` bytes, at least one. -/
theorem fread_eq_one {inp buf rest : List UInt8} {size : ℕ} {eof : Bool}
    (h : fread inp size = (1, buf, rest, eof)) :
    0 < size ∧ size ≤ inp.length ∧ buf = inp.take size ∧ rest = inp.drop size := by
  unfold fread at h
  split_ifs at h with h₀ h₁
  · simp at h
  · simp only [Prod.mk.injEq] at h
    exact ⟨Nat.pos_of_ne_zero h₀, h₁, h.2.1.symm, h.2.2.1.symm⟩
  · simp at h

/-- Reading a pair consumes input. -/
theorem undumpCallbackPair_length {inp rest : List UInt8} {p : KVLDSKey × KVLDSKey}
    (h : undumpCallbackPair inp = some (some p, rest)) : rest.length < inp.length := by
  unfold undumpCallbackPair at h
  split at h
  · rename_i inp₁ _ h₁
    obtain ⟨-, hle₁, -, rfl⟩ := fread_eq_one h₁
    -- everything after the length byte is at most the rest of the input after it
    have hshort :
        ∀ {l : List UInt8}, l.length ≤ (inp.drop 1).length → l.length < inp.length := by
      intro l hl
      simp only [List.length_drop] at hl
      omega
    refine hshort ?_
    split at h
    · rename_i inp₂ _ h₂
      obtain ⟨-, -, -, rfl⟩ := fread_eq_one h₂
      split at h
      · cases h
      · split at h
        · rename_i inp₃ _ h₃
          obtain ⟨-, -, -, rfl⟩ := fread_eq_one h₃
          split at h
          · rename_i inp₄ _ h₄
            obtain ⟨-, -, -, rfl⟩ := fread_eq_one h₄
            obtain ⟨value, -, heq⟩ := Option.map_eq_some_iff.mp h
            simp only [Prod.mk.injEq] at heq
            obtain ⟨-, rfl⟩ := heq
            simp only [List.length_drop]
            omega
          · cases h
        · cases h
    · cases h
  · split at h <;> simp at h

/-- kvlds-undump: `kvlds_multiset` calls `callback_pair` until it reports no more pairs; the
undump fails where the callback fails. -/
def kvldsUndump (inp : List UInt8) : Option (List (KVLDSKey × KVLDSKey)) :=
  match _h : undumpCallbackPair inp with
  | none => none
  | some (none, _) => some []
  | some (some p, rest) => (kvldsUndump rest).map (p :: ·)
termination_by inp.length
decreasing_by exact undumpCallbackPair_length _h

/-! ## `--fs` -/

/-- `writefile(dir, fname, v)`: the contents of a new file holding `v`; `none` where `fwrite`
does not return 1. -/
def writefile (v : KVLDSKey) : Option (List UInt8) :=
  match fwrite [] v.buf with
  | (1, file) => some file
  | _ => none

/-- `callback_pair` of kvlds-dump with `--fs`: the directory numbered `N`, holding the file `k`
with the key and the file `v` with the value. -/
def dumpFsCallbackPair (N : ℕ) (key value : KVLDSKey) :
    Option (ℕ × List UInt8 × List UInt8) :=
  match writefile key with
  | none => none
  | some kf => (writefile value).map fun vf => (N, kf, vf)

/-- kvlds-dump with `--fs`: the directories written for the pairs `ps`, numbered from `N`. -/
def kvldsDumpFs (N : ℕ) :
    List (KVLDSKey × KVLDSKey) → Option (List (ℕ × List UInt8 × List UInt8))
  | [] => some []
  | (k, v) :: ps =>
    match dumpFsCallbackPair N k v with
    | none => none
    | some d => (kvldsDumpFs (N + 1) ps).map (d :: ·)

/-- `readfile(dir, fname)` of a file holding `file`: `none` past 255 bytes or where `fread`
does not return 1. -/
def readfile (file : List UInt8) : Option KVLDSKey :=
  if 255 < file.length then none
  else
    match fread file file.length with
    | (1, buf, _, _) => kvldskeyCreate buf
    | _ => none

/-- kvlds-undump with `--fs`: `callback_pair` reads the files `k` and `v` of each directory, in
the order `readdir` lists them. -/
def kvldsUndumpFs : List (ℕ × List UInt8 × List UInt8) → Option (List (KVLDSKey × KVLDSKey))
  | [] => some []
  | (_, kf, vf) :: ds =>
    match readfile kf with
    | none => none
    | some k =>
      match readfile vf with
      | none => none
      | some v => (kvldsUndumpFs ds).map ((k, v) :: ·)

/-! ## The format -/

/-- The bytes of one pair: the key's length byte and bytes, then the value's. -/
def pairBytes (p : KVLDSKey × KVLDSKey) : List UInt8 :=
  (UInt8.ofNat p.1.len :: p.1.buf) ++ (UInt8.ofNat p.2.len :: p.2.buf)

/-- The dump format the tools document, pair after pair. -/
def dumpFormat (ps : List (KVLDSKey × KVLDSKey)) : List UInt8 := ps.flatMap pairBytes

/-- The directories of the `--fs` format, numbered from `N`: the key's bytes in the file `k`,
the value's in the file `v`. -/
def dumpFsFormat (N : ℕ) : List (KVLDSKey × KVLDSKey) → List (ℕ × List UInt8 × List UInt8)
  | [] => []
  | p :: ps => (N, p.1.buf, p.2.buf) :: dumpFsFormat (N + 1) ps

/-! ## Streams on a key's bytes -/

section Streams

variable (out rest : List UInt8) (k : KVLDSKey)

@[simp] theorem fwrite_byte (b : UInt8) : fwrite out [b] = (1, out ++ [b]) := rfl

/-- Writing a key's bytes succeeds exactly when there are some. -/
theorem fwrite_key : fwrite out k.buf = if k.len = 0 then (0, out) else (1, out ++ k.buf) := rfl

@[simp] theorem fread_byte (b : UInt8) : fread (b :: rest) 1 = (1, [b], rest, false) := by
  simp [fread]

/-- Reading a key's bytes back succeeds exactly when there are some. -/
theorem fread_key :
    fread (k.buf ++ rest) k.len = if k.len = 0 then (0, [], k.buf ++ rest, false)
      else (1, k.buf, rest, false) := by
  by_cases h : k.len = 0
  · simp [fread, h]
  · simp [fread, len]

@[simp] theorem fread_nil_one : fread [] 1 = (0, [], [], true) := rfl

@[simp] theorem kvldskeyCreate_buf : kvldskeyCreate k.buf = some k := by
  simp [kvldskeyCreate, k.len_le]

end Streams

/-! ## Each tool on one pair -/

/-- `callback_pair` of kvlds-dump writes a pair's bytes, unless the key or the value is empty. -/
theorem dumpCallbackPair_eq (out : List UInt8) (key value : KVLDSKey) :
    dumpCallbackPair out key value =
      if key.len ≠ 0 ∧ value.len ≠ 0 then some (out ++ pairBytes (key, value)) else none := by
  -- `fwrite(key->buf, 0, 1, stdout)` and `fwrite(value->buf, 0, 1, stdout)` return 0
  by_cases hk : key.len = 0 <;> by_cases hv : value.len = 0 <;>
    simp [dumpCallbackPair, fwrite_key, hk, hv, pairBytes]

/-- `callback_pair` of kvlds-undump reads a pair's bytes back, unless the key or the value is
empty. -/
theorem undumpCallbackPair_pairBytes (p : KVLDSKey × KVLDSKey) (rest : List UInt8) :
    undumpCallbackPair (pairBytes p ++ rest) =
      if p.1.len ≠ 0 ∧ p.2.len ≠ 0 then some (some p, rest) else none := by
  obtain ⟨k, v⟩ := p
  have hstream : pairBytes (k, v) ++ rest =
      UInt8.ofNat k.len :: (k.buf ++ (UInt8.ofNat v.len :: (v.buf ++ rest))) := by
    simp [pairBytes]
  rw [hstream]
  unfold undumpCallbackPair
  simp only [fread_byte, List.headD_cons, toNat_ofNat_len]
  rw [fread_key]
  by_cases hk : k.len = 0
  · -- `fread(&buf, 0, 1, stdin)` returns 0
    simp [hk]
  · simp only [hk, if_false, kvldskeyCreate_buf, fread_byte, List.headD_cons, toNat_ofNat_len]
    rw [fread_key]
    by_cases hv : v.len = 0
    · simp [hv]
    · simp [hk, hv]

theorem undumpCallbackPair_nil : undumpCallbackPair [] = some (none, []) := rfl

section Undump

variable {inp rest : List UInt8} {p : KVLDSKey × KVLDSKey}

theorem kvldsUndump_of_pair (h : undumpCallbackPair inp = some (some p, rest)) :
    kvldsUndump inp = (kvldsUndump rest).map (p :: ·) := by
  rw [kvldsUndump]
  split <;> simp_all

theorem kvldsUndump_of_nomore (h : undumpCallbackPair inp = some (none, rest)) :
    kvldsUndump inp = some [] := by
  rw [kvldsUndump]
  split <;> simp_all

theorem kvldsUndump_of_none (h : undumpCallbackPair inp = none) : kvldsUndump inp = none := by
  rw [kvldsUndump]
  split <;> simp_all

end Undump

/-! ## The whole stream -/

section Whole

variable (p : KVLDSKey × KVLDSKey) (ps : List (KVLDSKey × KVLDSKey))

/-- A store with no empty key and no empty value, pair by pair. -/
theorem nonEmpty_cons :
    (∀ q ∈ p :: ps, q.1.len ≠ 0 ∧ q.2.len ≠ 0) ↔
      (p.1.len ≠ 0 ∧ p.2.len ≠ 0) ∧ ∀ q ∈ ps, q.1.len ≠ 0 ∧ q.2.len ≠ 0 :=
  List.forall_mem_cons

/-- The test on a whole store, split at its first pair. -/
theorem ite_nonEmpty_cons {α : Type} (a b : α) :
    (if ∀ q ∈ p :: ps, q.1.len ≠ 0 ∧ q.2.len ≠ 0 then a else b) =
      if p.1.len ≠ 0 ∧ p.2.len ≠ 0 then
        (if ∀ q ∈ ps, q.1.len ≠ 0 ∧ q.2.len ≠ 0 then a else b)
      else b := by
  by_cases hp : p.1.len ≠ 0 ∧ p.2.len ≠ 0
  · by_cases hps : ∀ q ∈ ps, q.1.len ≠ 0 ∧ q.2.len ≠ 0
    · rw [if_pos ((nonEmpty_cons p ps).mpr ⟨hp, hps⟩), if_pos hp, if_pos hps]
    · rw [if_neg fun h => hps ((nonEmpty_cons p ps).mp h).2, if_pos hp, if_neg hps]
  · rw [if_neg fun h => hp ((nonEmpty_cons p ps).mp h).1, if_neg hp]

theorem kvldsDump_eq (out : List UInt8) :
    kvldsDump ps out =
      if ∀ p ∈ ps, p.1.len ≠ 0 ∧ p.2.len ≠ 0 then some (out ++ dumpFormat ps)
      else none := by
  induction ps generalizing out with
  | nil => simp [kvldsDump, dumpFormat]
  | cons p ps ih =>
    obtain ⟨k, v⟩ := p
    rw [kvldsDump, dumpCallbackPair_eq, ite_nonEmpty_cons]
    by_cases hp : k.len ≠ 0 ∧ v.len ≠ 0
    · rw [if_pos hp, if_pos hp]
      show kvldsDump ps (out ++ pairBytes (k, v)) = _
      rw [ih]
      simp [dumpFormat]
    · rw [if_neg hp, if_neg hp]

example :
    kvldsDump [(⟨[97], by decide⟩, ⟨[98, 99], by decide⟩)] [] = some [1, 97, 2, 98, 99] := by
  decide

theorem kvldsUndump_dumpFormat :
    kvldsUndump (dumpFormat ps) =
      if ∀ p ∈ ps, p.1.len ≠ 0 ∧ p.2.len ≠ 0 then some ps else none := by
  induction ps with
  | nil => simp [dumpFormat, kvldsUndump_of_nomore undumpCallbackPair_nil]
  | cons p ps ih =>
    have hpair := undumpCallbackPair_pairBytes p (dumpFormat ps)
    rw [dumpFormat, List.flatMap_cons, ← dumpFormat, ite_nonEmpty_cons]
    by_cases hp : p.1.len ≠ 0 ∧ p.2.len ≠ 0
    · rw [if_pos hp] at hpair ⊢
      rw [kvldsUndump_of_pair hpair, ih]
      split_ifs <;> rfl
    · rw [if_neg hp] at hpair ⊢
      exact kvldsUndump_of_none hpair

end Whole

/-! ## The `--fs` directories -/

section Fs

variable (k v : KVLDSKey)

/-- `writefile` writes a key's bytes, unless there are none. -/
theorem writefile_eq : writefile k = if k.len = 0 then none else some k.buf := by
  by_cases h : k.len = 0 <;> simp [writefile, fwrite_key, h]

/-- `readfile` reads the file `writefile` wrote back as the same key, unless it is empty. -/
theorem readfile_buf : readfile k.buf = if k.len = 0 then none else some k := by
  have hle : ¬255 < k.buf.length := Nat.not_lt.mpr k.len_le
  have hread := fread_key [] k
  simp only [List.append_nil] at hread
  unfold readfile
  rw [if_neg hle, show k.buf.length = k.len from rfl, hread]
  -- `fread(buf, 0, 1, f)` of an empty file returns 0
  by_cases h : k.len = 0 <;> simp [h]

theorem dumpFsCallbackPair_eq (N : ℕ) :
    dumpFsCallbackPair N k v =
      if k.len ≠ 0 ∧ v.len ≠ 0 then some (N, k.buf, v.buf) else none := by
  by_cases hk : k.len = 0 <;> by_cases hv : v.len = 0 <;>
    simp [dumpFsCallbackPair, writefile_eq, hk, hv]

end Fs

section FsWhole

variable (ps : List (KVLDSKey × KVLDSKey))

theorem kvldsDumpFs_eq (N : ℕ) :
    kvldsDumpFs N ps =
      if ∀ p ∈ ps, p.1.len ≠ 0 ∧ p.2.len ≠ 0 then some (dumpFsFormat N ps) else none := by
  induction ps generalizing N with
  | nil => rfl
  | cons p ps ih =>
    obtain ⟨k, v⟩ := p
    rw [kvldsDumpFs, dumpFsCallbackPair_eq, ite_nonEmpty_cons]
    by_cases hp : k.len ≠ 0 ∧ v.len ≠ 0
    · rw [if_pos hp, if_pos hp]
      show (kvldsDumpFs (N + 1) ps).map ((N, k.buf, v.buf) :: ·) = _
      rw [ih]
      split_ifs <;> rfl
    · rw [if_neg hp, if_neg hp]

/-- kvlds-undump with `--fs` succeeds exactly where it reads every directory's two files. -/
theorem kvldsUndumpFs_eq_some_iff (ds : List (ℕ × List UInt8 × List UInt8)) :
    kvldsUndumpFs ds = some ps ↔
      List.Forall₂ (fun d p => readfile d.2.1 = some p.1 ∧ readfile d.2.2 = some p.2)
        ds ps := by
  induction ds generalizing ps with
  | nil => cases ps <;> simp [kvldsUndumpFs]
  | cons d ds ih =>
    obtain ⟨n, kf, vf⟩ := d
    cases ps with
    | nil => cases hk : readfile kf <;> cases hv : readfile vf <;> simp [kvldsUndumpFs, hk, hv]
    | cons p ps =>
      obtain ⟨k, v⟩ := p
      cases hk : readfile kf <;> cases hv : readfile vf <;>
        simp [kvldsUndumpFs, hk, hv, ← ih, and_comm]

theorem kvldsUndumpFs_dumpFsFormat (N : ℕ) :
    kvldsUndumpFs (dumpFsFormat N ps) =
      if ∀ p ∈ ps, p.1.len ≠ 0 ∧ p.2.len ≠ 0 then some ps else none := by
  induction ps generalizing N with
  | nil => rfl
  | cons p ps ih =>
    obtain ⟨k, v⟩ := p
    simp only [dumpFsFormat, kvldsUndumpFs, readfile_buf]
    rw [ite_nonEmpty_cons]
    -- `readfile` fails on the key's file first, then on the value's
    by_cases hk : k.len = 0
    · simp [hk]
    · by_cases hv : v.len = 0
      · simp [hk, hv]
      · rw [if_neg hk, if_neg hv, if_pos (show (k, v).1.len ≠ 0 ∧ (k, v).2.len ≠ 0 from ⟨hk, hv⟩),
          ih]
        split_ifs <;> rfl

/-- Whatever order `readdir` lists the directories in, kvlds-undump reads the pairs back. -/
theorem kvldsUndumpFs_perm {ds ds' : List (ℕ × List UInt8 × List UInt8)}
    (h : kvldsUndumpFs ds = some ps) (hperm : ds'.Perm ds) :
    ∃ ps', kvldsUndumpFs ds' = some ps' ∧ ps'.Perm ps := by
  obtain ⟨ps', h₂, hperm'⟩ :=
    List.perm_comp_forall₂ hperm ((kvldsUndumpFs_eq_some_iff ps ds).mp h)
  exact ⟨ps', (kvldsUndumpFs_eq_some_iff ps' ds').mpr h₂, hperm'⟩

theorem kvldsDump_emptyPairs (ps : List (KVLDSKey × KVLDSKey)) :
    kvldsDump ps [] =
        (if ∀ p ∈ ps, p.1.len ≠ 0 ∧ p.2.len ≠ 0 then some (dumpFormat ps) else none) ∧
      kvldsUndump (dumpFormat ps) =
        (if ∀ p ∈ ps, p.1.len ≠ 0 ∧ p.2.len ≠ 0 then some ps else none) ∧
      kvldsDumpFs 0 ps =
        (if ∀ p ∈ ps, p.1.len ≠ 0 ∧ p.2.len ≠ 0 then some (dumpFsFormat 0 ps)
        else none) ∧
      kvldsUndumpFs (dumpFsFormat 0 ps) =
        (if ∀ p ∈ ps, p.1.len ≠ 0 ∧ p.2.len ≠ 0 then some ps else none) ∧
      ∀ ds ds', kvldsDumpFs 0 ps = some ds → ds'.Perm ds →
        ∃ ps', kvldsUndumpFs ds' = some ps' ∧ ps'.Perm ps := by
  refine ⟨kvldsDump_eq ps [], kvldsUndump_dumpFormat ps, kvldsDumpFs_eq ps 0,
    kvldsUndumpFs_dumpFsFormat ps 0, ?_⟩
  intro ds ds' hdump hperm
  rw [kvldsDumpFs_eq] at hdump
  split_ifs at hdump with hall
  cases hdump
  exact kvldsUndumpFs_perm ps ((kvldsUndumpFs_dumpFsFormat ps 0).trans (if_pos hall)) hperm

end FsWhole

/-- The key `a` with the empty value: kvlds-dump fails on it, in both formats. -/
theorem kvldsDump_emptyPairs_emptyValue :
    kvldsDump [(⟨[97], by decide⟩, empty)] [] = none ∧
      kvldsDumpFs 0 [(⟨[97], by decide⟩, empty)] = none := by
  obtain ⟨hdump, -, hfs, -⟩ := kvldsDump_emptyPairs [(⟨[97], by decide⟩, empty)]
  have hempty :
      ¬∀ p ∈ [((⟨[97], by decide⟩ : KVLDSKey), empty)], p.1.len ≠ 0 ∧ p.2.len ≠ 0 :=
    fun h => (h _ List.mem_cons_self).2 empty_len
  rw [if_neg hempty] at hdump hfs
  exact ⟨hdump, hfs⟩

end Kivaloo.Kvlds
