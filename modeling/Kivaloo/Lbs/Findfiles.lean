import Mathlib
import Kivaloo.Lbs.Storage
import Kivaloo.Util.Hexify
import Kivaloo.Datastruct.Ptrheap
import Kivaloo.Lib.BigEndian

/-!
# Finding the block files (lbs/storage_findfiles.c, lbs/storage_util.c)

On launch lbs lists its storage directory: `storage_findfiles` keeps the entries named
`blks_<16 hex digits>` that are regular files, reads the digits as a big-endian number with
`unhexify` and `be64dec`, puts the files in a `ptrheap` ordered by `fs_compar`, and takes them
out least number first.  `storage_init` then checks that the files follow one another.  The
files are created under the names of `storage_util_mkpath`, `blks_` and the first block number
in sixteen lower-case hexadecimal digits.

The name of every file number is read back as that number (`blksFileno_blksName`), and every
name `storage_findfiles` accepts is such a name, up to the case of its digits
(`blksName_of_blksFileno`).  `storage_findfiles` fails exactly where `lstat` fails on an accepted
name, and otherwise returns the regular files with accepted names in order of number
(`storageFindfiles_spec`).  Together with `storage_init`: the directory of a store, its
files listed in any order among other entries and the last one cut short by a partial block,
starts lbs again with that store (`storageInit_restart`).
-/

namespace Kivaloo.Lbs

open Kivaloo.Lib Kivaloo.Util Kivaloo.Datastruct

/-- A directory entry as `readdir` and `lstat` give it: the name, and whether the file is a
regular one and its size, or `none` where `lstat` fails. -/
structure Dirent where
  name : List UInt8
  stat : Option (Bool × ℕ)

instance : Inhabited StorageFile := ⟨⟨0, 0⟩⟩

/-- `fs_compar(cookie, x, y)`: by file number. -/
def fsCompar (x y : StorageFile) : ℤ :=
  if x.fileno < y.fileno then -1 else if x.fileno > y.fileno then 1 else 0

/-- The file number `storage_findfiles` reads from a name: the name must have the length of
`blks_0123456789abcdef`, start with `blks_`, and go on with sixteen hexadecimal digits, which
`be64dec` reads as a number; `none` for a name it skips. -/
def blksFileno (name : List UInt8) : Option UInt64 :=
  if name.length ≠ (ascii "blks_0123456789abcdef").length then none
  else if name.take 5 ≠ ascii "blks_" then none
  else (unhexify (name.drop 5) 8).map fun fileno_exp => UInt64.ofNat (beDec fileno_exp)

/-- The loop of `storage_findfiles` over the directory: each regular file with a `blks_` name
goes into the heap with its number and size; `none` where `lstat` fails on such a name. -/
def findfilesLoop : List Dirent → Ptrheap StorageFile → Option (Ptrheap StorageFile)
  | [], H => some H
  | dp :: dps, H =>
    match blksFileno dp.name with
    | none => findfilesLoop dps H
    | some fileno =>
      match dp.stat with
      | none => none
      | some (isReg, size) =>
        if isReg then findfilesLoop dps (ptrheapAdd H ⟨fileno, size⟩) else findfilesLoop dps H

/-- The loop that takes the files out of the heap into the queue, least number first, for at
most `fuel` turns. -/
def findfilesDrain : ℕ → Ptrheap StorageFile → List StorageFile
  | 0, _ => []
  | fuel + 1, H =>
    match ptrheapGetmin H with
    | none => []
    | some sf =>
      match ptrheapDeletemin H with
      | none => []
      | some H' => sf :: findfilesDrain fuel H'

/-- `storage_findfiles(path)` on the entries `readdir` returns, in its order: the files in the
order they leave the heap, one turn for each. -/
def storageFindfiles (dir : List Dirent) : Option (List StorageFile) :=
  (findfilesLoop dir (ptrheapInit fsCompar)).map fun H => findfilesDrain H.nelems H

/-- `"%016" PRIx64` of `n`: its sixteen hexadecimal digits, most significant first, in the lower
case of the first half of `hexchars`. -/
def fmt016x (n : UInt64) : List UInt8 :=
  (List.range 16).map fun i => hexdigit (n.toNat / 16 ^ (15 - i) % 16)

/-- The name `storage_util_mkpath(S, fileno)` gives the file of `fileno` in the storage
directory. -/
def blksName (fileno : UInt64) : List UInt8 := ascii "blks_" ++ fmt016x fileno

/-! ## Names -/

/-- The digits of `2 * k` hexadecimal places of `n` are the `hexify` of its `k` low bytes. -/
theorem hexDigits_eq_hexify (k n : ℕ) :
    (List.range (2 * k)).map (fun i => hexdigit (n / 16 ^ (2 * k - 1 - i) % 16)) =
      hexify (beEnc k n) := by
  induction k generalizing n with
  | zero => simp [beEnc]
  | succ k ih =>
    have hbyte : ((n % 256).toUInt8).toNat = n % 256 := by simp [Nat.toUInt8]
    -- the places before the last two are those of `n / 256`
    have hplaces : ∀ i < 2 * k, n / 16 ^ (2 * k + 1 + 1 - 1 - i) = n / 256 / 16 ^ (2 * k - 1 - i) := by
      intro i hi
      rw [Nat.div_div_eq_div_mul, show 2 * k + 1 + 1 - 1 - i = 2 + (2 * k - 1 - i) by omega, pow_add]
      rfl
    rw [beEnc, hexify_append, ← ih, hexify_cons, hexify_nil, hbyte,
      show 2 * (k + 1) = 2 * k + 1 + 1 by ring, List.range_succ, List.range_succ, List.map_append,
      List.map_append, List.append_assoc]
    congr 1
    · exact List.map_congr_left fun i hi => by rw [hplaces i (List.mem_range.mp hi)]
    · -- the last byte is the last two digits
      rw [List.map_singleton, List.map_singleton, List.singleton_append,
        show 2 * k + 1 + 1 - 1 - 2 * k = 1 by omega, show 2 * k + 1 + 1 - 1 - (2 * k + 1) = 0 by omega,
        pow_one, pow_zero, Nat.div_one, show n / 16 % 16 = n % 256 / 16 by omega,
        show n % 16 = n % 256 % 16 by omega]

theorem fmt016x_eq_hexify (n : UInt64) : fmt016x n = hexify (beEnc 8 n.toNat) :=
  hexDigits_eq_hexify 8 n.toNat

theorem length_blksName (n : UInt64) : (blksName n).length = 21 := by
  simp [blksName, fmt016x, ascii]

/-- `storage_findfiles` reads the number back from the name `storage_util_mkpath` gives it. -/
theorem blksFileno_blksName (n : UInt64) : blksFileno (blksName n) = some n := by
  have h5 : (ascii "blks_").length = 5 := rfl
  have hlen : (blksName n).length = (ascii "blks_0123456789abcdef").length := by
    rw [length_blksName]
    rfl
  have hprefix : (blksName n).take 5 = ascii "blks_" := List.take_left' h5
  have hdigits : (blksName n).drop 5 = hexify (beEnc 8 n.toNat) ++ [] := by
    rw [blksName, List.drop_left' h5, fmt016x_eq_hexify, List.append_nil]
  have hread := unhexify_hexify (beEnc 8 n.toNat) []
  rw [length_beEnc] at hread
  rw [blksFileno, if_neg (not_not.mpr hlen), if_neg (not_not.mpr hprefix), hdigits, hread,
    Option.map_some, beDec_beEnc, Nat.mod_eq_of_lt (by simpa using n.toNat_lt),
    UInt64.ofNat_toNat]

/-- `unhexify` returns as many bytes as it is asked for. -/
theorem length_of_unhexify {s bs : List UInt8} {len : ℕ} (h : unhexify s len = some bs) :
    bs.length = len := by
  obtain ⟨hlen, hhex⟩ := hexify_of_unhexify h
  have := congrArg List.length hhex
  simp only [length_hexify, List.length_map, List.length_take] at this
  omega

/-- Every name `storage_findfiles` accepts is the name of its number, up to the case of the
digits: two files whose names differ only so have one number. -/
theorem blksName_of_blksFileno {name : List UInt8} {n : UInt64} (h : blksFileno name = some n) :
    blksName n = name.map asciiLower := by
  unfold blksFileno at h
  split_ifs at h with hlen hprefix
  obtain ⟨bs, hbs, rfl⟩ := Option.map_eq_some_iff.mp h
  obtain ⟨-, hhex⟩ := hexify_of_unhexify hbs
  have hbl := length_of_unhexify hbs
  have hname : name.length = 21 := not_not.mp hlen
  have hval : (UInt64.ofNat (beDec bs)).toNat = beDec bs := by
    have := beDec_lt bs
    rw [hbl] at this
    exact UInt64.toNat_ofNat_of_lt' (by simpa using this)
  -- the digits read are the bytes whose `hexify` the name spells, in lower case
  calc blksName (UInt64.ofNat (beDec bs))
      = ascii "blks_" ++ hexify bs := by
        rw [blksName, fmt016x_eq_hexify, hval, ← hbl, beEnc_beDec]
    _ = (name.take 5).map asciiLower ++ (name.drop 5).map asciiLower := by
        rw [hhex, List.take_of_length_le (by simp [hname]), not_not.mp hprefix]
        congr 1
    _ = name.map asciiLower := by rw [← List.map_append, List.take_append_drop]

/-! ## The scan and the heap -/

/-- The key `fs_compar` orders by. -/
def filenoKey (sf : StorageFile) : ℕ := sf.fileno.toNat

theorem keyed_fsCompar : Keyed fsCompar filenoKey where
  neg_iff x y := by
    simp only [fsCompar, filenoKey, gt_iff_lt, UInt64.lt_iff_toNat_lt]
    split_ifs <;> omega
  pos_iff x y := by
    simp only [fsCompar, filenoKey, gt_iff_lt, UInt64.lt_iff_toNat_lt]
    split_ifs <;> omega

/-- The file `storage_findfiles` takes from a directory entry: a regular file with a `blks_`
name, with its number and size. -/
def direntFile (dp : Dirent) : Option StorageFile :=
  match blksFileno dp.name, dp.stat with
  | some fileno, some (true, size) => some ⟨fileno, size⟩
  | _, _ => none

/-- An entry whose name `storage_findfiles` accepts and on which `lstat` fails. -/
def lstatFails (dp : Dirent) : Prop := (blksFileno dp.name).isSome ∧ dp.stat = none

/-- The scan fails exactly where `lstat` fails on an accepted name. -/
theorem findfilesLoop_eq_none (dir : List Dirent) (H : Ptrheap StorageFile) :
    findfilesLoop dir H = none ↔ ∃ dp ∈ dir, lstatFails dp := by
  induction dir generalizing H with
  | nil => simp [findfilesLoop]
  | cons dp dps ih =>
    rw [findfilesLoop]
    rcases hname : blksFileno dp.name with _ | fileno
    · simp [lstatFails, hname, ih]
    · rcases hstat : dp.stat with _ | ⟨isReg, size⟩
      · simp [lstatFails, hname, hstat]
      · cases isReg <;> simp [lstatFails, hname, hstat, ih]

/-- Without a failing `lstat`, the scan adds to the heap the files of the entries. -/
theorem findfilesLoop_holds {dir : List Dirent} (hdir : ∀ dp ∈ dir, ¬lstatFails dp) :
    ∀ {H : Ptrheap StorageFile} {M : Multiset StorageFile}, H.Holds filenoKey M →
      ∃ H', findfilesLoop dir H = some H' ∧ H'.Holds filenoKey (M + ↑(dir.filterMap direntFile)) := by
  induction dir with
  | nil => exact fun hH => ⟨_, rfl, by simpa using hH⟩
  | cons dp dps ih =>
    intro H M hH
    have hdps : ∀ {H' : Ptrheap StorageFile} {M' : Multiset StorageFile}, H'.Holds filenoKey M' →
        ∃ H'', findfilesLoop dps H' = some H'' ∧
          H''.Holds filenoKey (M' + ↑(dps.filterMap direntFile)) :=
      ih fun d hd => hdir d (List.mem_cons_of_mem _ hd)
    rw [findfilesLoop]
    rcases hname : blksFileno dp.name with _ | fileno
    · -- a name the scan skips
      have hfile : direntFile dp = none := by simp [direntFile, hname]
      simpa [List.filterMap_cons, hfile] using hdps hH
    · rcases hstat : dp.stat with _ | ⟨isReg, size⟩
      · exact absurd ⟨by simp [hname], hstat⟩ (hdir dp List.mem_cons_self)
      · cases isReg with
        | false =>
          have hfile : direntFile dp = none := by simp [direntFile, hname, hstat]
          simpa [List.filterMap_cons, hfile] using hdps hH
        | true =>
          -- a block file: it joins the heap
          have hfile : direntFile dp = some ⟨fileno, size⟩ := by simp [direntFile, hname, hstat]
          obtain ⟨H', hH', hHolds⟩ := hdps (hH.add ⟨fileno, size⟩)
          refine ⟨H', by simpa using hH', ?_⟩
          rw [List.filterMap_cons, hfile, ← Multiset.cons_coe, Multiset.add_cons, ← Multiset.cons_add]
          exact hHolds

/-- Taking the files out of a heap, one turn for each, gives them all, in order of number. -/
theorem findfilesDrain_spec :
    ∀ (fuel : ℕ) {H : Ptrheap StorageFile} {M : Multiset StorageFile}, H.Holds filenoKey M →
      H.nelems ≤ fuel →
        ((findfilesDrain fuel H : List StorageFile) : Multiset StorageFile) = M ∧
          (findfilesDrain fuel H).Pairwise fun x y => x.fileno.toNat ≤ y.fileno.toNat
  | 0, H, M, hH, hfuel => by
    have hM : M = 0 := by
      rw [← hH.elems_eq, Multiset.coe_eq_zero, ← List.length_eq_zero_iff, ← hH.nelems_eq]
      omega
    simp [findfilesDrain, hM]
  | fuel + 1, H, M, hH, hfuel => by
    rw [findfilesDrain]
    rcases hmin : ptrheapGetmin H with _ | sf
    · simp [(hH.getmin_eq_none).mp hmin]
    · -- the least file goes first, and the rest come out of the heap without it
      obtain ⟨hsf, hleast⟩ := hH.getmin_spec hmin
      obtain ⟨H', hdel, hH'⟩ := hH.deletemin hmin
      have hn' : H'.nelems ≤ fuel := by
        have := congrArg Multiset.card hH'.elems_eq
        rw [Multiset.coe_card, Multiset.card_erase_of_mem hsf, ← hH.elems_eq, Multiset.coe_card,
          ← hH.nelems_eq, ← hH'.nelems_eq, Nat.pred_eq_sub_one] at this
        omega
      obtain ⟨hrest, hsorted⟩ := findfilesDrain_spec fuel hH' hn'
      rw [hdel]
      refine ⟨?_, List.pairwise_cons.mpr ⟨fun y hy => hleast y ?_, hsorted⟩⟩
      · rw [← Multiset.cons_coe, hrest, Multiset.cons_erase hsf]
      · exact Multiset.mem_of_mem_erase (hrest ▸ Multiset.mem_coe.mpr hy)

/-- Without a failing `lstat`, `storage_findfiles` returns the files of the entries in order of
number. -/
theorem storageFindfiles_of_ok {dir : List Dirent} (hok : ∀ dp ∈ dir, ¬lstatFails dp) :
    ∃ files, storageFindfiles dir = some files ∧
      (files : Multiset StorageFile) = ↑(dir.filterMap direntFile) ∧
        files.Pairwise fun x y => x.fileno.toNat ≤ y.fileno.toNat := by
  obtain ⟨H, hloop, hH⟩ := findfilesLoop_holds hok (ptrheapInit_holds keyed_fsCompar)
  obtain ⟨hall, hsorted⟩ := findfilesDrain_spec _ hH le_rfl
  refine ⟨_, by rw [storageFindfiles, hloop, Option.map_some], by simpa using hall, hsorted⟩

/-- `storage_findfiles` fails exactly where `lstat` fails on an accepted name, and otherwise
returns every regular file with an accepted name, with its number and size, in order of
number. -/
theorem storageFindfiles_spec (dir : List Dirent) :
    (storageFindfiles dir = none ↔ ∃ dp ∈ dir, lstatFails dp) ∧
      ∀ files, storageFindfiles dir = some files →
        files.Perm (dir.filterMap direntFile) ∧ files.Pairwise fun x y => x.fileno ≤ y.fileno := by
  refine ⟨by rw [storageFindfiles, Option.map_eq_none_iff, findfilesLoop_eq_none], ?_⟩
  intro files h
  have hok : ∀ dp ∈ dir, ¬lstatFails dp := by
    intro dp hdp hfail
    have := (findfilesLoop_eq_none dir (ptrheapInit fsCompar)).mpr ⟨dp, hdp, hfail⟩
    rw [storageFindfiles, this, Option.map_none] at h
    cases h
  obtain ⟨files', h', hall, hsorted⟩ := storageFindfiles_of_ok hok
  rw [h', Option.some.injEq] at h
  subst h
  exact ⟨Multiset.coe_eq_coe.mp hall, hsorted.imp fun h => UInt64.le_iff_toNat_le.mpr h⟩

/-- A directory with block files 5, 2 and 9 in the order `readdir` gives them, `lost+found`, and
a subdirectory named like a block file. -/
def mixedDir : List Dirent :=
  [⟨blksName 5, some (true, 1024)⟩, ⟨ascii "lost+found", some (false, 4096)⟩,
    ⟨blksName 2, some (true, 512)⟩, ⟨blksName 7, some (false, 4096)⟩, ⟨blksName 9, some (true, 100)⟩]

/-- The scan keeps the three regular block files, by number; an entry for file 3 on which
`lstat` fails makes it fail. -/
theorem storageFindfiles_spec_mixedDir :
    storageFindfiles mixedDir = some [⟨2, 512⟩, ⟨5, 1024⟩, ⟨9, 100⟩] ∧
      storageFindfiles (⟨blksName 3, none⟩ :: mixedDir) = none ∧
      List.Perm [⟨2, 512⟩, ⟨5, 1024⟩, ⟨9, 100⟩] (mixedDir.filterMap direntFile) := by
  have hfind : storageFindfiles mixedDir = some [⟨2, 512⟩, ⟨5, 1024⟩, ⟨9, 100⟩] := by
    with_unfolding_all decide
  have hfail : lstatFails ⟨blksName 3, none⟩ := ⟨by rw [blksFileno_blksName]; rfl, rfl⟩
  exact ⟨hfind, (storageFindfiles_spec _).1.mpr ⟨_, List.mem_cons_self, hfail⟩,
    ((storageFindfiles_spec mixedDir).2 _ hfind).1⟩

/-! ## Starting again from the directory of a store -/

/-- The directory entry of a regular file named for `sf.fileno`, of `sf.len` bytes. -/
def StorageFile.dirent (sf : StorageFile) : Dirent := ⟨blksName sf.fileno, some (true, sf.len)⟩

/-- The block files of a store as its directory holds them: each file's blocks, and after the
blocks of the last one the `torn` bytes of a write cut short. -/
def storeFiles (blocklen torn : ℕ) : List FileState → List StorageFile
  | [] => []
  | [fs] => [⟨fs.start, fs.len.toNat * blocklen + torn⟩]
  | fs :: fs' :: files => ⟨fs.start, fs.len.toNat * blocklen⟩ :: storeFiles blocklen torn (fs' :: files)

theorem direntFile_dirent (sf : StorageFile) : direntFile sf.dirent = some sf := by
  simp [direntFile, StorageFile.dirent, blksFileno_blksName]

theorem map_fileno_storeFiles (blocklen torn : ℕ) :
    ∀ files : List FileState, (storeFiles blocklen torn files).map (·.fileno) = files.map (·.start)
  | [] => rfl
  | [_] => rfl
  | _ :: fs' :: files => by
    rw [storeFiles, List.map_cons, map_fileno_storeFiles blocklen torn (fs' :: files), List.map_cons]
    rfl

/-- Every file of a chain starts at or after its start. -/
theorem Chain.le_start : ∀ {files : List FileState} {lo hi : ℕ}, Chain files lo hi →
    ∀ fs ∈ files, lo ≤ fs.start.toNat
  | [], _, _, _ => by simp
  | f :: files, lo, hi, ⟨hf, hrest⟩ => by
    intro fs hfs
    rcases List.mem_cons.mp hfs with rfl | hfs
    · exact hf.ge
    · exact le_trans (Nat.le_add_right _ _) (hrest.le_start fs hfs)

/-- The files of a chain start in order. -/
theorem Chain.pairwise_start : ∀ {files : List FileState} {lo hi : ℕ}, Chain files lo hi →
    files.Pairwise fun a b => a.start.toNat ≤ b.start.toNat
  | [], _, _, _ => List.Pairwise.nil
  | _ :: _, _, _, ⟨hf, hrest⟩ => List.pairwise_cons.mpr
      ⟨fun fs hfs => hf ▸ le_trans (Nat.le_add_right _ _) (hrest.le_start fs hfs), hrest.pairwise_start⟩

/-- One file of the loop of `storage_init` that starts at `nextblk` and, unless it is the last
file, holds whole blocks only. -/
theorem storageInitLoop_cons {blocklen : ℕ} {sf : StorageFile} {rest : List StorageFile}
    {fss : List FileState} {nextblk : UInt64} (hstart : sf.fileno = nextblk)
    (hwhole : sf.len % blocklen = 0 ∨ rest = []) :
    storageInitLoop blocklen (sf :: rest) fss nextblk =
      storageInitLoop blocklen rest (fss ++ [⟨sf.fileno, UInt64.ofNat (sf.len / blocklen)⟩])
        (sf.fileno + UInt64.ofNat (sf.len / blocklen)) := by
  rw [storageInitLoop, if_neg (not_not.mpr hstart), if_neg (by tauto)]

/-- The loop of `storage_init` over the files of a chain that stays below `2 ^ 64` finds the
chain. -/
theorem storageInitLoop_storeFiles {blocklen torn : ℕ} (hbl : 0 < blocklen) (htorn : torn < blocklen) :
    ∀ (files fss : List FileState) (nextblk : UInt64) (hi : ℕ), Chain files nextblk.toNat hi →
      hi < 2 ^ 64 →
        storageInitLoop blocklen (storeFiles blocklen torn files) fss nextblk =
          some (fss ++ files, UInt64.ofNat hi)
  | [], fss, nextblk, hi, h, _ => by
    rw [storeFiles, storageInitLoop, List.append_nil, ← chain_nil.mp h, UInt64.ofNat_toNat]
  | fs :: files, fss, nextblk, hi, ⟨hs, hrest⟩, hhi => by
    -- the file starts at `nextblk`, and `nextblk` moves past its blocks without wrapping
    have hlen : UInt64.ofNat ((fs.len.toNat * blocklen + torn) / blocklen) = fs.len ∧
        UInt64.ofNat (fs.len.toNat * blocklen / blocklen) = fs.len := by
      rw [Nat.add_comm, Nat.add_mul_div_right _ _ hbl, Nat.div_eq_of_lt htorn, Nat.zero_add,
        Nat.mul_div_cancel _ hbl]
      exact ⟨UInt64.ofNat_toNat, UInt64.ofNat_toNat⟩
    have hnext : (fs.start + fs.len).toNat = nextblk.toNat + fs.len.toNat := by
      rw [UInt64.toNat_add, hs]
      exact Nat.mod_eq_of_lt (by have := hrest.le; omega)
    have hstart : fs.start = nextblk := UInt64.toNat_inj.mp hs
    have ih := storageInitLoop_storeFiles hbl htorn files (fss ++ [fs]) (fs.start + fs.len) hi
      (by rw [hnext]; exact hrest) hhi
    rcases files with _ | ⟨fs', files⟩
    · rw [storeFiles, List.append_nil] at ih
      rw [storeFiles, storageInitLoop_cons hstart (Or.inr rfl), hlen.1]
      exact ih
    · rw [storeFiles, storageInitLoop_cons hstart (Or.inl (Nat.mul_mod_left _ _)), hlen.2, ih,
        List.append_assoc, List.singleton_append]

/-- `storage_init` on the files of a store, in order, gives back the store. -/
theorem storageInit_storeFiles {S : StorageState} (hS : S.Inv)
    (hbl : protoLbsBlklenMin ≤ S.blocklen ∧ S.blocklen ≤ protoLbsBlklenMax) {offMax : UInt64}
    (hmax : S.maxnblks = offMax / UInt64.ofNat S.blocklen) (hempty : S.files = [] → S.minblk = 0)
    {torn : ℕ} (htorn : torn < S.blocklen) :
    storageInit S.blocklen offMax (storeFiles S.blocklen torn S.files) = some S := by
  have hpos : 0 < S.blocklen := lt_of_lt_of_le (by decide) hbl.1
  have hloop := storageInitLoop_storeFiles hpos htorn S.files [] S.minblk S.nextblk.toNat hS
    S.nextblk.toNat_lt
  rw [List.nil_append, UInt64.ofNat_toNat] at hloop
  have hmap := map_fileno_storeFiles S.blocklen torn S.files
  unfold storageInit
  rw [if_neg (by simp only [not_or, not_lt]; exact hbl)]
  generalize storeFiles S.blocklen torn S.files = l at hloop hmap ⊢
  cases l with
  | nil =>
    -- no files: the store starts at 0
    have hnil : S.files = [] := List.map_eq_nil_iff.mp hmap.symm
    rw [hempty hnil] at hloop
    dsimp only
    rw [hloop, Option.map_some, ← hmax, ← hempty hnil]
  | cons sf rest =>
    -- the first file starts at the first block
    obtain ⟨fs, files, hfs⟩ : ∃ fs files, S.files = fs :: files :=
      List.exists_cons_of_ne_nil fun h => by simp [h] at hmap
    have hchain := hS
    rw [StorageState.Inv, hfs] at hchain
    rw [hfs, List.map_cons, List.map_cons, List.cons.injEq] at hmap
    have hfirst : sf.fileno = S.minblk := hmap.1.trans (UInt64.toNat_inj.mp hchain.1)
    dsimp only
    rw [hfirst, hloop, Option.map_some, ← hmax]

/-- lbs started on the directory of a store finds that store again.  The directory holds the
store's block files under the names `storage_util_mkpath` gives them, listed by `readdir` in any
order among other entries (names `storage_findfiles` skips, or files that are not regular), and
the last file may end in `torn` bytes of a block whose write was cut short.  No two files of the
store have one name, its block length is one `storage_init` accepts, and a store without files
starts at block 0. -/
theorem storageInit_restart {S : StorageState} (hS : S.Inv) (hnames : (S.files.map (·.start)).Nodup)
    (hbl : protoLbsBlklenMin ≤ S.blocklen ∧ S.blocklen ≤ protoLbsBlklenMax) {offMax : UInt64}
    (hmax : S.maxnblks = offMax / UInt64.ofNat S.blocklen) (hempty : S.files = [] → S.minblk = 0)
    {torn : ℕ} (htorn : torn < S.blocklen) {dir others : List Dirent}
    (hothers : ∀ dp ∈ others, blksFileno dp.name = none ∨ ∃ size, dp.stat = some (false, size))
    (hdir : dir.Perm ((storeFiles S.blocklen torn S.files).map StorageFile.dirent ++ others)) :
    ∃ files, storageFindfiles dir = some files ∧ storageInit S.blocklen offMax files = some S := by
  set stored := storeFiles S.blocklen torn S.files
  -- no `lstat` fails: the block files are regular files, the other entries are skipped
  have hok : ∀ dp ∈ dir, ¬lstatFails dp := by
    intro dp hdp ⟨hname, hstat⟩
    rcases List.mem_append.mp (hdir.mem_iff.mp hdp) with hdp | hdp
    · obtain ⟨sf, -, rfl⟩ := List.mem_map.mp hdp
      cases hstat
    · rcases hothers dp hdp with h | ⟨size, h⟩
      · simp [h] at hname
      · simp [h] at hstat
  -- the files found are those of the store
  have hfound : (dir.filterMap direntFile).Perm stored := by
    have hothers' : others.filterMap direntFile = [] := by
      refine List.filterMap_eq_nil_iff.mpr fun dp hdp => ?_
      rcases hothers dp hdp with h | ⟨size, h⟩ <;> simp [direntFile, h]
    have hstored : (stored.map StorageFile.dirent).filterMap direntFile = stored := by
      rw [List.filterMap_map, show direntFile ∘ StorageFile.dirent = some from
        funext direntFile_dirent, List.filterMap_some]
    simpa [List.filterMap_append, hothers', hstored] using hdir.filterMap direntFile
  obtain ⟨files, hfind, hall, hsorted⟩ := storageFindfiles_of_ok hok
  -- both lists are in order of number, and the store's numbers are distinct
  have hmap : stored.map (·.fileno) = S.files.map (·.start) := map_fileno_storeFiles _ _ _
  have hstored : stored.Pairwise fun x y => x.fileno.toNat ≤ y.fileno.toNat := by
    have h : (S.files.map (·.start)).Pairwise fun a b => a.toNat ≤ b.toNat :=
      List.pairwise_map.mpr hS.pairwise_start
    rw [← hmap] at h
    exact (List.pairwise_map (R := fun a b : UInt64 => a.toNat ≤ b.toNat)).mp h
  have hperm : files.Perm stored := (Multiset.coe_eq_coe.mp hall).trans hfound
  have heq : files = stored := by
    refine hperm.eq_of_pairwise (fun a b ha hb hab hba => ?_) hsorted hstored
    have hinj := List.inj_on_of_nodup_map (hmap ▸ hnames : (stored.map (·.fileno)).Nodup)
    exact hinj (hperm.subset ha) hb (UInt64.toNat_inj.mp (le_antisymm hab hba))
  exact ⟨files, hfind, heq ▸ storageInit_storeFiles hS hbl hmax hempty htorn⟩

/-- A store of 512-byte blocks in two files, of two blocks and of one. -/
def twoFiles : StorageState := ⟨512, 0x7FFFFFFFFFFFFFFF / 512, [⟨0, 2⟩, ⟨2, 1⟩], 0, 3⟩

/-- Its directory as `readdir` may list it: `lost+found` first, then the two files, the second
ending in 100 bytes of a block whose write was cut short. -/
def twoFilesDir : List Dirent :=
  ⟨ascii "lost+found", some (false, 4096)⟩ :: (storeFiles 512 100 twoFiles.files).map StorageFile.dirent

theorem twoFiles_restart :
    ∃ files, storageFindfiles twoFilesDir = some files ∧
      storageInit twoFiles.blocklen 0x7FFFFFFFFFFFFFFF files = some twoFiles := by
  have hdir : twoFilesDir.Perm ((storeFiles twoFiles.blocklen 100 twoFiles.files).map
      StorageFile.dirent ++ [⟨ascii "lost+found", some (false, 4096)⟩]) :=
    (List.perm_append_singleton _ _).symm
  exact storageInit_restart (by simp [StorageState.Inv, twoFiles]) (by decide) (by decide) rfl
    (fun h => by simp [twoFiles] at h) (by decide)
    (fun _ hdp => Or.inr ⟨4096, by rw [List.mem_singleton.mp hdp]⟩) hdir

end Kivaloo.Lbs
