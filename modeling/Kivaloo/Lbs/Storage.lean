import Mathlib

/-!
# The block store of lbs (lbs/storage.c)

lbs keeps its blocks in files named by their first block number, one file after the other: a
file holds the blocks from `start` to `start + len - 1`, and the next file starts where it ends.
`storage_init` reads the files of the storage directory in order and checks that each starts
where the last one ended; `storage_write` appends blocks at `nextblk`, to the last file or to a
new one, and advances `nextblk`; `storage_delete` removes whole files from the front, never the
last one.

All of this is `uint64_t` arithmetic, unchecked.  As long as it does not wrap, the files hold
exactly the blocks from `minblk` to `nextblk` (`StorageState.Inv`, kept by every operation:
`storageInit_inv`, `storageWrite_inv`, `storageDelete_inv`), a read of a block in that range
finds the file that holds it (`storageRead_of_inv`), and a write takes the blocks after all those
held.  A write that passes `UINT64_MAX` is accepted all the same, and `nextblk` wraps around
(`storageWrite_nextblk_lt_iff`).
-/

namespace Kivaloo.Lbs

/-- `struct file_state`: the first block of a file and its length in blocks. -/
structure FileState where
  start : UInt64
  len : UInt64
deriving DecidableEq, Repr

/-- `struct storage_file` as `storage_findfiles` lists them: the file number and the length of
the file in bytes. -/
structure StorageFile where
  fileno : UInt64
  len : ℕ
deriving DecidableEq, Repr

/-- The fields of `struct storage_state` that the block bookkeeping uses. -/
structure StorageState where
  blocklen : ℕ
  maxnblks : UInt64
  files : List FileState
  minblk : UInt64
  nextblk : UInt64
deriving DecidableEq, Repr

/-- `PROTO_LBS_BLKLEN_MIN`. -/
def protoLbsBlklenMin : ℕ := 512

/-- `PROTO_LBS_BLKLEN_MAX`. -/
def protoLbsBlklenMax : ℕ := 131072

/-! ## The operations -/

/-- The loop of `storage_init` over the sorted block files, from `nextblk`: each file must
start at `nextblk`, and only the last may end in a partial block (which is truncated away);
`none` where the directory is refused. -/
def storageInitLoop (blocklen : ℕ) :
    List StorageFile → List FileState → UInt64 → Option (List FileState × UInt64)
  | [], fss, nextblk => some (fss, nextblk)
  | sf :: files, fss, nextblk =>
    if sf.fileno ≠ nextblk then none
    else if sf.len % blocklen ≠ 0 ∧ files ≠ [] then none
    else
      let fs : FileState := ⟨sf.fileno, UInt64.ofNat (sf.len / blocklen)⟩
      storageInitLoop blocklen files (fss ++ [fs]) (fs.start + fs.len)

/-- `storage_init(storagedir, blocklen, ...)` on the files `storage_findfiles` lists, where
`offMax` is the largest file length of the platform (`OFF_MAX`, or `INT32_MAX` without it);
`none` where an assertion fails or the directory is refused. -/
def storageInit (blocklen : ℕ) (offMax : UInt64) (files : List StorageFile) :
    Option StorageState :=
  if blocklen < protoLbsBlklenMin ∨ protoLbsBlklenMax < blocklen then none
  else
    let minblk : UInt64 := match files with
      | [] => 0
      | sf :: _ => sf.fileno
    (storageInitLoop blocklen files [] minblk).map fun r =>
      ⟨blocklen, offMax / UInt64.ofNat blocklen, r.1, minblk, r.2⟩

/-- `storage_nextblock(S)`. -/
def storageNextblock (S : StorageState) : UInt64 := S.nextblk

/-- Whether `storage_write` starts a new file: there is none yet, the last one holds more than a
sixteenth of the blocks stored, or the blocks written would make it too long. -/
def newfile (S : StorageState) (nblks : UInt64) : Bool :=
  match S.files.getLast? with
  | none => true
  | some fs => decide (fs.len > (S.nextblk - S.minblk) / 16) || decide (fs.len + nblks > S.maxnblks)

/-- `fs->len += nblks` on a file. -/
def FileState.grow (nblks : UInt64) (fs : FileState) : FileState :=
  { fs with len := fs.len + nblks }

/-- `storage_write(S, blkno, nblks, buf)`: the blocks go to the end of the last file, or of a
new file that starts at `blkno`, and `nextblk` moves past them; `none` where the assertion
`nblks != 0` fails or `blkno` is not `nextblk` (the error on which the writer thread exits). -/
def storageWrite (S : StorageState) (blkno nblks : UInt64) : Option StorageState :=
  if nblks = 0 then none
  else if blkno ≠ S.nextblk then none
  else
    let files := if newfile S nblks then S.files ++ [⟨blkno, 0⟩] else S.files
    some { S with files := files.modifyLast (FileState.grow nblks)
                  nextblk := S.nextblk + nblks }

/-- The loop of `storage_delete(S, blkno)`: while there are two files or more and the first ends
at or before `blkno`, the first file goes and `minblk` moves to the start of the next. -/
def storageDeleteLoop (blkno : UInt64) : List FileState → UInt64 → List FileState × UInt64
  | fs :: fs' :: files, minblk =>
    if fs.start + fs.len > blkno then (fs :: fs' :: files, minblk)
    else storageDeleteLoop blkno (fs' :: files) fs'.start
  | files, minblk => (files, minblk)

/-- `storage_delete(S, blkno)`. -/
def storageDelete (S : StorageState) (blkno : UInt64) : StorageState :=
  let r := storageDeleteLoop blkno S.files S.minblk
  { S with files := r.1, minblk := r.2 }

/-- `storage_read(S, blkno, buf)`: the file that holds the block and the block's place in it,
or `some none` for a block that is not held (a return of 0); `none` where one of the assertions
that a file holds it fails. -/
def storageRead (S : StorageState) (blkno : UInt64) : Option (Option (FileState × UInt64)) :=
  if blkno < S.minblk ∨ blkno ≥ S.nextblk then some none
  else
    match S.files.find? (fun fs => decide (blkno < fs.start + fs.len)) with
    | none => none
    | some fs => if fs.start ≤ blkno then some (some (fs, blkno - fs.start)) else none

/-! ## The blocks held -/

/-- The files hold the blocks from `lo` to `hi`, each file starting where the one before it
ends, counted without wrap-around. -/
def Chain : List FileState → ℕ → ℕ → Prop
  | [], lo, hi => lo = hi
  | fs :: files, lo, hi => fs.start.toNat = lo ∧ Chain files (lo + fs.len.toNat) hi

@[simp]
theorem chain_nil {lo hi : ℕ} : Chain [] lo hi ↔ lo = hi := Iff.rfl

@[simp]
theorem chain_cons {fs : FileState} {files : List FileState} {lo hi : ℕ} :
    Chain (fs :: files) lo hi ↔ fs.start.toNat = lo ∧ Chain files (lo + fs.len.toNat) hi :=
  Iff.rfl

theorem Chain.le {files : List FileState} {lo hi : ℕ} (h : Chain files lo hi) : lo ≤ hi := by
  induction files generalizing lo with
  | nil => exact le_of_eq h
  | cons fs files ih => exact le_trans (Nat.le_add_right _ _) (ih h.2)

/-- A file added at the end starts where the others end. -/
theorem chain_concat_iff {files : List FileState} {fs : FileState} {lo hi : ℕ} :
    Chain (files ++ [fs]) lo hi ↔
      ∃ mid, Chain files lo mid ∧ fs.start.toNat = mid ∧ hi = mid + fs.len.toNat := by
  induction files generalizing lo with
  | nil =>
    simp only [List.nil_append, chain_cons, chain_nil]
    constructor
    · rintro ⟨hs, hhi⟩
      exact ⟨lo, rfl, hs, hhi.symm⟩
    · rintro ⟨mid, rfl, hs, hhi⟩
      exact ⟨hs, hhi.symm⟩
  | cons f files ih =>
    simp only [List.cons_append, chain_cons, ih]
    constructor
    · rintro ⟨hf, mid, hmid⟩
      exact ⟨mid, ⟨hf, hmid.1⟩, hmid.2⟩
    · rintro ⟨mid, ⟨hf, hmid⟩, hrest⟩
      exact ⟨hf, mid, hmid, hrest⟩

/-- What `storage_write` does to the last file keeps the chain, with the blocks added at its
end, as long as they stay below `2 ^ 64`. -/
theorem Chain.modifyLast_grow {files : List FileState} {lo hi : ℕ} (h : Chain files lo hi)
    (hne : files ≠ []) {nblks : UInt64} (hfit : hi + nblks.toNat < 2 ^ 64) :
    Chain (files.modifyLast (FileState.grow nblks)) lo (hi + nblks.toNat) := by
  obtain ⟨init, last, rfl⟩ := (List.eq_nil_or_concat files).resolve_left hne
  rw [List.concat_eq_append] at h ⊢
  obtain ⟨mid, hinit, hstart, rfl⟩ := chain_concat_iff.mp h
  rw [List.modifyLast_concat, chain_concat_iff]
  refine ⟨mid, hinit, hstart, ?_⟩
  have hlen : (last.len + nblks).toNat = last.len.toNat + nblks.toNat := by
    rw [UInt64.toNat_add]
    exact Nat.mod_eq_of_lt (by omega)
  simp only [FileState.grow, hlen]
  omega

/-- lbs's invariant of the block store: the files hold exactly the blocks from `minblk` to
`nextblk`, one after the other. -/
def StorageState.Inv (S : StorageState) : Prop :=
  Chain S.files S.minblk.toNat S.nextblk.toNat

/-! ## The operations keep the blocks held -/

/-- The loop of `storage_init` extends the chain file by file, as long as no file reaches past
block `2 ^ 64`. -/
theorem storageInitLoop_chain {blocklen : ℕ} :
    ∀ {files : List StorageFile} {fss : List FileState} {lo : ℕ} {nextblk : UInt64}
      {r : List FileState × UInt64},
      Chain fss lo nextblk.toNat →
      (∀ sf ∈ files, sf.fileno.toNat + sf.len / blocklen < 2 ^ 64) →
      storageInitLoop blocklen files fss nextblk = some r → Chain r.1 lo r.2.toNat
  | [], _, _, _, _, hchain, _, h => by
    rw [storageInitLoop, Option.some.injEq] at h
    subst h
    exact hchain
  | sf :: files, fss, lo, nextblk, r, hchain, hfit, h => by
    rw [storageInitLoop] at h
    split_ifs at h with hstart hpartial
    rw [not_not] at hstart
    -- the file starts at `nextblk`, and its blocks end below `2 ^ 64`
    have hsf := hfit sf List.mem_cons_self
    have hlen : (UInt64.ofNat (sf.len / blocklen)).toNat = sf.len / blocklen :=
      UInt64.toNat_ofNat_of_lt' (by unfold UInt64.size; omega)
    have hend : (sf.fileno + UInt64.ofNat (sf.len / blocklen)).toNat =
        nextblk.toNat + sf.len / blocklen := by
      rw [UInt64.toNat_add, hlen, ← hstart]
      exact Nat.mod_eq_of_lt hsf
    refine storageInitLoop_chain ?_ (fun sf' h' => hfit sf' (List.mem_cons_of_mem _ h')) h
    rw [chain_concat_iff]
    exact ⟨nextblk.toNat, hchain, by rw [hstart], by rw [hend, hlen]⟩

/-- A directory that `storage_init` accepts, with no file reaching past block `2 ^ 64`, gives a
store that holds the blocks from its first file on. -/
theorem storageInit_inv {blocklen : ℕ} {offMax : UInt64} {files : List StorageFile}
    {S : StorageState} (hfit : ∀ sf ∈ files, sf.fileno.toNat + sf.len / blocklen < 2 ^ 64)
    (h : storageInit blocklen offMax files = some S) : S.Inv := by
  simp only [storageInit] at h
  split_ifs at h
  obtain ⟨r, hr, rfl⟩ := Option.map_eq_some_iff.mp h
  exact storageInitLoop_chain (chain_nil.mpr rfl) hfit hr

/-- `storage_write` succeeds exactly on a nonzero count of blocks at `nextblk`. -/
theorem storageWrite_eq_some {S S' : StorageState} {blkno nblks : UInt64} :
    storageWrite S blkno nblks = some S' ↔
      nblks ≠ 0 ∧ blkno = S.nextblk ∧
        S' = { S with files := (if newfile S nblks then S.files ++ [⟨blkno, 0⟩]
                                else S.files).modifyLast (FileState.grow nblks)
                      nextblk := S.nextblk + nblks } := by
  by_cases h0 : nblks = 0
  · simp [storageWrite, h0]
  by_cases hb : blkno = S.nextblk
  · subst hb
    simp only [storageWrite, if_neg h0, ne_eq, not_true_eq_false, if_false, Option.some.injEq,
      true_and]
    exact ⟨fun h => ⟨h0, h.symm⟩, fun h => h.2.symm⟩
  · simp [storageWrite, hb]

/-- The files `storage_write` appends to: the last one, or a new empty one at `nextblk`. -/
theorem chain_newfile {S : StorageState} (hS : S.Inv) (nblks : UInt64) :
    Chain (if newfile S nblks then S.files ++ [⟨S.nextblk, 0⟩] else S.files)
        S.minblk.toNat S.nextblk.toNat ∧
      (if newfile S nblks then S.files ++ [⟨S.nextblk, 0⟩] else S.files) ≠ [] := by
  by_cases hnew : newfile S nblks
  · rw [if_pos hnew]
    exact ⟨chain_concat_iff.mpr ⟨_, hS, rfl, rfl⟩, List.concat_ne_nil _ _⟩
  · -- without a new file there is a last file
    rw [if_neg hnew]
    refine ⟨hS, fun hnil => hnew ?_⟩
    simp [newfile, hnil]

/-- A write that stays below `2 ^ 64` keeps the store's invariant and moves `nextblk` past the
blocks written. -/
theorem storageWrite_inv {S S' : StorageState} {blkno nblks : UInt64} (hS : S.Inv)
    (h : storageWrite S blkno nblks = some S') (hfit : S.nextblk.toNat + nblks.toNat < 2 ^ 64) :
    S'.Inv ∧ S'.nextblk.toNat = S.nextblk.toNat + nblks.toNat := by
  obtain ⟨-, rfl, rfl⟩ := storageWrite_eq_some.mp h
  obtain ⟨hchain, hne⟩ := chain_newfile hS nblks
  have hnext : (S.nextblk + nblks).toNat = S.nextblk.toNat + nblks.toNat := by
    rw [UInt64.toNat_add]
    exact Nat.mod_eq_of_lt hfit
  refine ⟨?_, hnext⟩
  show Chain _ S.minblk.toNat (S.nextblk + nblks).toNat
  rw [hnext]
  exact hchain.modifyLast_grow hne hfit

/-- `nextblk` after a write is `nextblk + nblks` modulo `2 ^ 64`: it grows exactly when the sum
stays below `2 ^ 64`, and otherwise wraps around below where it was. -/
theorem storageWrite_nextblk_lt_iff {S S' : StorageState} {blkno nblks : UInt64}
    (h : storageWrite S blkno nblks = some S') :
    S.nextblk < S'.nextblk ↔ S.nextblk.toNat + nblks.toNat < 2 ^ 64 := by
  obtain ⟨h0, -, rfl⟩ := storageWrite_eq_some.mp h
  have hpos : 0 < nblks.toNat := by
    apply Nat.pos_of_ne_zero
    intro hz
    exact h0 (UInt64.toNat_inj.mp (by simpa using hz))
  have hlt := nblks.toNat_lt
  show S.nextblk.toNat < (S.nextblk + nblks).toNat ↔ _
  rw [UInt64.toNat_add]
  constructor
  · intro hgrow
    by_contra hwrap
    rw [Nat.mod_eq_sub_mod (by omega), Nat.mod_eq_of_lt (by omega)] at hgrow
    omega
  · intro hfit
    rw [Nat.mod_eq_of_lt hfit]
    omega

/-- The loop of `storage_delete` keeps the chain from the new first file on. -/
theorem storageDeleteLoop_chain {blkno : UInt64} :
    ∀ {files : List FileState} {minblk : UInt64} {hi : ℕ},
      Chain files minblk.toNat hi →
      Chain (storageDeleteLoop blkno files minblk).1 (storageDeleteLoop blkno files minblk).2.toNat hi
  | fs :: fs' :: files, minblk, hi, h => by
    rw [storageDeleteLoop]
    split_ifs
    · exact h
    · -- the second file starts where the first ends
      obtain ⟨-, hs', hrest⟩ := h
      refine storageDeleteLoop_chain ?_
      rw [chain_cons, hs']
      exact ⟨rfl, hrest⟩
  | [], _, _, h => h
  | [_], _, _, h => h

theorem storageDelete_inv {S : StorageState} (hS : S.Inv) (blkno : UInt64) :
    (storageDelete S blkno).Inv :=
  storageDeleteLoop_chain hS

/-- In a chain, the files are searched in order for the first one that ends after the block,
and that file holds it. -/
theorem Chain.find?_holds {files : List FileState} {lo hi : ℕ} (h : Chain files lo hi)
    (hhi : hi < 2 ^ 64) {blkno : UInt64} (hlo : lo ≤ blkno.toNat) (hb : blkno.toNat < hi) :
    ∃ fs, files.find? (fun fs => decide (blkno < fs.start + fs.len)) = some fs ∧
      fs.start.toNat ≤ blkno.toNat ∧ blkno.toNat < fs.start.toNat + fs.len.toNat := by
  induction files generalizing lo with
  | nil => exact absurd (chain_nil.mp h) (by omega)
  | cons fs files ih =>
    obtain ⟨hs, hrest⟩ := h
    -- the end of the first file is below `2 ^ 64`, so the test does not wrap
    have hend : (fs.start + fs.len).toNat = fs.start.toNat + fs.len.toNat := by
      rw [UInt64.toNat_add]
      exact Nat.mod_eq_of_lt (by have := hrest.le; omega)
    by_cases hin : blkno.toNat < fs.start.toNat + fs.len.toNat
    · refine ⟨fs, ?_, by omega, hin⟩
      rw [List.find?_cons_of_pos]
      simpa [UInt64.lt_iff_toNat_lt, hend] using hin
    · obtain ⟨fs', hfind, hfs'⟩ := ih hrest (by omega)
      refine ⟨fs', ?_, hfs'⟩
      rw [List.find?_cons_of_neg (by simpa [UInt64.lt_iff_toNat_lt, hend] using hin)]
      exact hfind

/-- A read of a block from `minblk` to `nextblk` finds the file that holds it and the block's
place in it. -/
theorem storageRead_of_inv {S : StorageState} (hS : S.Inv) {blkno : UInt64}
    (hlo : S.minblk ≤ blkno) (hhi : blkno < S.nextblk) :
    ∃ fs, storageRead S blkno = some (some (fs, blkno - fs.start)) ∧
      fs.start.toNat ≤ blkno.toNat ∧ blkno.toNat < fs.start.toNat + fs.len.toNat := by
  rw [UInt64.le_iff_toNat_le] at hlo
  rw [UInt64.lt_iff_toNat_lt] at hhi
  obtain ⟨fs, hfind, hstart, hend⟩ := Chain.find?_holds hS S.nextblk.toNat_lt hlo hhi
  refine ⟨fs, ?_, hstart, hend⟩
  have hin : ¬(blkno < S.minblk ∨ blkno ≥ S.nextblk) := by
    simp only [not_or, not_lt, ge_iff_le, UInt64.le_iff_toNat_le, UInt64.lt_iff_toNat_lt]
    omega
  rw [storageRead, if_neg hin, hfind]
  simp [UInt64.le_iff_toNat_le, hstart]

end Kivaloo.Lbs
