import Mathlib
import Kivaloo.Lib.Transition

/-!
# The pool of server addresses (lib/serverpool/serverpool.c)

A server pool keeps the addresses that a child process finds by looking up a name, one lookup
every so often.  Each address carries the generation of the lookup that last returned it and an
end of life `ttl` seconds after that; the child ends each generation with an address length
of 0, on which the pool counts the next generation and prunes.  `pruneaddrs` keeps the addresses
of the current and the previous generation and those whose end of life is still ahead, and
`serverpool_pick` prunes and then picks an address at random, asserting that one is left.

`pruneaddrs` removes an address by copying the last one over it and shrinking the array, and
then moves on to the next index, so the address it moved is never examined: a pruned array can
still hold expired addresses (`pruneaddrs_keepsMoved`).  What it does keep is every address it
should (`pruneLoop_filter`), and it adds none (`pruneLoop_subperm`); so as long as every
generation the child completes has an address, the pool is never empty when an address is
picked (`PoolWorld.reachable_pick`).
-/

namespace Kivaloo.Serverpool

open Kivaloo.Lib

/-- `struct timeval`. -/
structure Timeval where
  sec : ℤ
  usec : ℤ
deriving DecidableEq

/-- `struct serverpool_addr`: the address, its end of life, and its generation. -/
structure ServerpoolAddr (σ : Type*) where
  sa : σ
  eol : Timeval
  generation : UInt64

/-- The fields of `struct serverpool` that the pool's bookkeeping uses: the array `A` of
addresses, `ttl`, and the current generation. -/
structure Pool (σ : Type*) where
  A : List (ServerpoolAddr σ)
  ttl : ℤ
  generation : UInt64

variable {σ : Type*} [DecidableEq σ]

/-- The loop of `addaddr` over the array: the first entry with the address gets the new end of
life and generation, and without one the address is appended. -/
def addaddrArray (sa : σ) (eol : Timeval) (gen : UInt64) :
    List (ServerpoolAddr σ) → List (ServerpoolAddr σ)
  | [] => [⟨sa, eol, gen⟩]
  | SPA :: A =>
    if SPA.sa = sa then { SPA with eol := eol, generation := gen } :: A
    else SPA :: addaddrArray sa eol gen A

/-- `addaddr(P, sa)` with the clock at `now`: the end of life is `now + ttl`. -/
def addaddr (P : Pool σ) (sa : σ) (now : Timeval) : Pool σ :=
  { P with A := addaddrArray sa ⟨now.sec + P.ttl, now.usec⟩ P.generation P.A }

/-- The test of `pruneaddrs`: an address of the current or the previous generation, or one whose
end of life is after `now`, is kept. -/
def keepAddr (gen : UInt64) (now : Timeval) (SPA : ServerpoolAddr σ) : Bool :=
  SPA.generation == gen || SPA.generation == gen - 1 ||
    (decide (SPA.eol.sec > now.sec) ||
      (decide (SPA.eol.sec = now.sec) && decide (SPA.eol.usec > now.usec)))

/-- The loop of `pruneaddrs` from index `i`: an entry that is not kept is replaced by the last
entry, the array shrinks by one, and the loop goes on with `i + 1`. -/
def pruneLoop (keep : ServerpoolAddr σ → Bool) (A : List (ServerpoolAddr σ)) (i : ℕ) :
    List (ServerpoolAddr σ) :=
  if h : i < A.length then
    if keep A[i] then pruneLoop keep A (i + 1)
    else pruneLoop keep ((A.set i A[A.length - 1]).dropLast) (i + 1)
  else A
termination_by A.length - i
decreasing_by
  · omega
  · simp only [List.length_dropLast, List.length_set]
    omega

/-- `pruneaddrs(P)` with the clock at `now`. -/
def pruneaddrs (P : Pool σ) (now : Timeval) : Pool σ :=
  { P with A := pruneLoop (keepAddr P.generation now) P.A 0 }

/-- `serverpool_pick(P)` with the clock at `now` and `rand()` returning `r`: the pruned pool and
the address picked; `none` where the assertion that an address is left fails. -/
def serverpoolPick (P : Pool σ) (now : Timeval) (r : ℕ) : Option (Pool σ × σ) :=
  let P := pruneaddrs P now
  if h : 0 < P.A.length then
    have := Nat.mod_lt r h
    some (P, P.A[r % P.A.length].sa)
  else none

/-- `callback_read_len` on an address length of 0: the next generation, then `pruneaddrs`. -/
def endGeneration (P : Pool σ) (now : Timeval) : Pool σ :=
  pruneaddrs { P with generation := P.generation + 1 } now

/-- `serverpool_create(target, freq, ttl)` on a first lookup that returned `sas`, each added at
the time paired with it: generation 0 for these, and generation 1 next. -/
def serverpoolCreate (ttl : ℤ) (sas : List (σ × Timeval)) : Pool σ :=
  { sas.foldl (fun P x => addaddr P x.1 x.2) ⟨[], ttl, 0⟩ with generation := 1 }

/-! ## What `pruneaddrs` keeps -/

section Prune

variable {α : Type*}

/-- Copying the last entry over entry `i` and dropping the last position removes entry `i`. -/
theorem dropLast_set_last_perm {A : List α} {i : ℕ} (hi : i < A.length) :
    (A.set i A[A.length - 1]).dropLast.Perm (A.eraseIdx i) := by
  have hne : A.set i A[A.length - 1] ≠ [] := by
    rw [← List.length_pos_iff, List.length_set]
    omega
  -- the last entry of the updated list is the one copied, wherever `i` is
  have hlast : (A.set i A[A.length - 1]).getLast hne = A[A.length - 1] := by
    rw [List.getLast_eq_getElem, List.getElem_set]
    split_ifs with h
    · rfl
    · simp
  have hsplit := List.dropLast_append_getLast hne
  rw [hlast] at hsplit
  have hperm : ((A.set i A[A.length - 1]).dropLast ++ [A[A.length - 1]]).Perm
      (A[A.length - 1] :: A.eraseIdx i) := by
    rw [hsplit]
    exact List.set_perm_cons_eraseIdx hi _
  exact (List.perm_cons _).mp ((List.perm_append_singleton _ _).symm.trans hperm)

variable {keep : ServerpoolAddr σ → Bool}

omit [DecidableEq σ] in
/-- `pruneaddrs` keeps every entry that it should keep, and no more of them. -/
theorem pruneLoop_filter (A : List (ServerpoolAddr σ)) (i : ℕ) :
    ((pruneLoop keep A i).filter keep).Perm (A.filter keep) := by
  fun_induction pruneLoop keep A i with
  | case1 A i hi hkeep ih => exact ih
  | case2 A i hi hkeep ih =>
    -- the entry removed is one that is not kept
    refine ih.trans (((dropLast_set_last_perm hi).filter keep).trans ?_)
    have := (List.getElem_cons_eraseIdx_perm hi).filter keep
    rwa [List.filter_cons_of_neg (by simpa using hkeep)] at this
  | case3 A i hi => exact List.Perm.refl _

omit [DecidableEq σ] in
/-- `pruneaddrs` adds no entry. -/
theorem pruneLoop_subperm (A : List (ServerpoolAddr σ)) (i : ℕ) :
    (pruneLoop keep A i).Subperm A := by
  fun_induction pruneLoop keep A i with
  | case1 A i hi hkeep ih => exact ih
  | case2 A i hi hkeep ih =>
    exact ih.trans ((dropLast_set_last_perm hi).subperm.trans (List.eraseIdx_sublist A i).subperm)
  | case3 A i hi => exact List.Subperm.refl _

omit [DecidableEq σ] in
theorem mem_pruneLoop {A : List (ServerpoolAddr σ)} {a : ServerpoolAddr σ} (ha : a ∈ A)
    (hkeep : keep a = true) (i : ℕ) : a ∈ pruneLoop keep A i :=
  List.mem_of_mem_filter ((pruneLoop_filter A i).mem_iff.mpr (List.mem_filter.mpr ⟨ha, hkeep⟩))

omit [DecidableEq σ] in
/-- Of two entries that are not kept, `pruneaddrs` frees the first and moves the second into its
place, where the loop, now at index 1, no longer looks. -/
theorem pruneLoop_pair {a b : ServerpoolAddr σ} (ha : keep a = false) :
    pruneLoop keep [a, b] 0 = [b] := by
  rw [pruneLoop, dif_pos (by simp), if_neg (by simpa using ha)]
  rw [pruneLoop, dif_neg (by simp)]
  rfl

end Prune

/-! ## The pool is never empty when an address is picked -/

/-- `addaddr` leaves an entry of the current generation. -/
theorem exists_addaddrArray (sa : σ) (eol : Timeval) (gen : UInt64) :
    ∀ A : List (ServerpoolAddr σ), ∃ a ∈ addaddrArray sa eol gen A, a.generation = gen
  | [] => ⟨_, List.mem_singleton_self _, rfl⟩
  | SPA :: A => by
    rw [addaddrArray]
    split_ifs
    · exact ⟨_, List.mem_cons_self, rfl⟩
    · obtain ⟨a, ha, hgen⟩ := exists_addaddrArray sa eol gen A
      exact ⟨a, List.mem_cons_of_mem _ ha, hgen⟩

/-- The addresses of a first lookup that returned any include one of generation 0. -/
theorem exists_foldl_addaddr :
    ∀ (sas : List (σ × Timeval)) (P : Pool σ), sas ≠ [] →
      ∃ a ∈ (sas.foldl (fun P x => addaddr P x.1 x.2) P).A, a.generation = P.generation
  | [_], _, _ => exists_addaddrArray _ _ _ _
  | x :: y :: sas, P, _ => exists_foldl_addaddr (y :: sas) (addaddr P x.1 x.2) (List.cons_ne_nil _ _)

/-- The pool and the reading of addresses from the child: `seen` says whether the generation
being read has had an address yet. -/
structure PoolWorld (σ : Type*) where
  P : Pool σ
  seen : Bool

/-- The events of the pool in a run where every generation the child completes has an address:
an address read (`callback_read_addr`), the end of a generation after an address of it
(`callback_read_len` on a length of 0), and a pick. -/
inductive PoolStep : PoolWorld σ → PoolWorld σ → Prop
  | readAddr {W : PoolWorld σ} (sa : σ) (now : Timeval) : PoolStep W ⟨addaddr W.P sa now, true⟩
  | endGeneration {W : PoolWorld σ} (now : Timeval) :
      W.seen = true → PoolStep W ⟨endGeneration W.P now, false⟩
  | pick {W : PoolWorld σ} {P' : Pool σ} {x : σ} (now : Timeval) (r : ℕ) :
      serverpoolPick W.P now r = some (P', x) → PoolStep W ⟨P', W.seen⟩

/-- Some address is of the generation being read, once it has had one, and of the generation
before otherwise. -/
def PoolWorld.Inv (W : PoolWorld σ) : Prop :=
  ∃ a ∈ W.P.A, a.generation = if W.seen then W.P.generation else W.P.generation - 1

omit [DecidableEq σ] in
/-- An address of the current or the previous generation survives `pruneaddrs`. -/
theorem mem_pruneaddrs {P : Pool σ} {a : ServerpoolAddr σ} (ha : a ∈ P.A)
    (hgen : a.generation = P.generation ∨ a.generation = P.generation - 1) (now : Timeval) :
    a ∈ (pruneaddrs P now).A :=
  mem_pruneLoop ha (by rcases hgen with h | h <;> simp [keepAddr, h]) 0

omit [DecidableEq σ] in
/-- Under the invariant, `serverpool_pick` finds an address. -/
theorem PoolWorld.Inv.pick_isSome {W : PoolWorld σ} (h : W.Inv) (now : Timeval) (r : ℕ) :
    (serverpoolPick W.P now r).isSome := by
  obtain ⟨a, ha, hgen⟩ := h
  have hmem := mem_pruneaddrs ha (by split_ifs at hgen <;> simp [hgen]) now
  have hpos : 0 < (pruneaddrs W.P now).A.length := List.length_pos_of_mem hmem
  simp only [serverpoolPick, dif_pos hpos, Option.isSome_some]

theorem PoolStep.inv {W W' : PoolWorld σ} (h : W.Inv) (hs : PoolStep W W') : W'.Inv := by
  cases hs with
  | readAddr sa now =>
    -- the address read is now of the current generation
    obtain ⟨a, ha, hgen⟩ := exists_addaddrArray sa ⟨now.sec + W.P.ttl, now.usec⟩ W.P.generation W.P.A
    exact ⟨a, ha, by simpa [addaddr] using hgen⟩
  | endGeneration now hseen =>
    -- an address of the generation that ended is of the previous one after the count
    obtain ⟨a, ha, hgen⟩ := h
    rw [hseen, if_pos rfl] at hgen
    have hprev : a.generation = (W.P.generation + 1) - 1 := by rw [hgen, add_sub_cancel_right]
    exact ⟨a, mem_pruneaddrs (P := { W.P with generation := W.P.generation + 1 }) ha
      (Or.inr hprev) now, hprev⟩
  | pick now r hpick =>
    obtain ⟨a, ha, hgen⟩ := h
    simp only [serverpoolPick] at hpick
    split_ifs at hpick
    obtain ⟨rfl, -⟩ := Prod.mk.injEq _ _ _ _ ▸ Option.some.inj hpick
    exact ⟨a, mem_pruneaddrs ha (by split_ifs at hgen <;> simp [hgen]) now, hgen⟩

/-- The pool as `serverpool_create` leaves it, before the child has sent an address of the next
generation. -/
def PoolWorld.init (ttl : ℤ) (sas : List (σ × Timeval)) : PoolWorld σ :=
  ⟨serverpoolCreate ttl sas, false⟩

/-- `addaddr` leaves the generation as it is. -/
@[simp]
theorem generation_foldl_addaddr (sas : List (σ × Timeval)) (P : Pool σ) :
    (sas.foldl (fun P x => addaddr P x.1 x.2) P).generation = P.generation := by
  induction sas generalizing P with
  | nil => rfl
  | cons x sas ih => exact ih (addaddr P x.1 x.2)

theorem PoolWorld.inv_init (ttl : ℤ) {sas : List (σ × Timeval)} (h : sas ≠ []) :
    (PoolWorld.init ttl sas).Inv := by
  obtain ⟨a, ha, hgen⟩ := exists_foldl_addaddr sas ⟨[], ttl, 0⟩ h
  exact ⟨a, ha, by simpa [PoolWorld.init, serverpoolCreate] using hgen⟩

/-- In every run from a first lookup that returned an address, `serverpool_pick` finds one. -/
theorem PoolWorld.reachable_pick {ttl : ℤ} {sas : List (σ × Timeval)} (h : sas ≠ [])
    {W : PoolWorld σ} (hW : Reachable (· = PoolWorld.init ttl sas) PoolStep W) (now : Timeval)
    (r : ℕ) : (serverpoolPick W.P now r).isSome :=
  hW.of_invariant (P := PoolWorld.Inv) (fun _ hs => hs ▸ PoolWorld.inv_init ttl h)
    (fun _ _ hinv hs => hs.inv hinv) (fun _ hinv => hinv.pick_isSome now r)

/-- `pruneaddrs` is not exact.  In a pool of two addresses, neither of them of the current or the
previous generation and both expired, it frees the first, moves the second into its place and
leaves it there, and `serverpool_pick` returns that address, which was due for removal.  What
it does keep is every address it should keep and none that was not there, and in a run where
every generation the child completes has an address, `serverpool_pick` finds an address. -/
theorem pruneaddrs_keepsMoved :
    (∀ (P : Pool σ) (now : Timeval) (a b : ServerpoolAddr σ), P.A = [a, b] →
      keepAddr P.generation now a = false → keepAddr P.generation now b = false →
        (pruneaddrs P now).A = [b] ∧ serverpoolPick P now 0 = some (pruneaddrs P now, b.sa)) ∧
    (∀ (P : Pool σ) (now : Timeval),
      ((pruneaddrs P now).A.filter (keepAddr P.generation now)).Perm
        (P.A.filter (keepAddr P.generation now)) ∧ (pruneaddrs P now).A.Subperm P.A) ∧
    (∀ (ttl : ℤ) (sas : List (σ × Timeval)), sas ≠ [] → ∀ W : PoolWorld σ,
      Reachable (· = PoolWorld.init ttl sas) PoolStep W →
        ∀ now r, (serverpoolPick W.P now r).isSome) := by
  refine ⟨fun P now a b hA ha _ => ?_, fun P now => ⟨pruneLoop_filter _ _, pruneLoop_subperm _ _⟩,
    fun _ _ h _ hW now r => PoolWorld.reachable_pick h hW now r⟩
  have hpruned : (pruneaddrs P now).A = [b] := by
    simp only [pruneaddrs, hA]
    exact pruneLoop_pair ha
  refine ⟨hpruned, ?_⟩
  have hpos : 0 < (pruneaddrs P now).A.length := by simp [hpruned]
  simp only [serverpoolPick, dif_pos hpos]
  simp [hpruned]

/-- Two expired addresses of generation 5 in a pool at generation 10: the second survives
pruning and is picked. -/
theorem pruneaddrs_keepsMoved_expired :
    (pruneaddrs (⟨[⟨0, ⟨0, 0⟩, 5⟩, ⟨1, ⟨0, 0⟩, 5⟩], 60, 10⟩ : Pool ℕ) ⟨100, 0⟩).A =
        [⟨1, ⟨0, 0⟩, 5⟩] ∧
      keepAddr 10 ⟨100, 0⟩ (⟨1, ⟨0, 0⟩, 5⟩ : ServerpoolAddr ℕ) = false ∧
      serverpoolPick (⟨[⟨0, ⟨0, 0⟩, 5⟩, ⟨1, ⟨0, 0⟩, 5⟩], 60, 10⟩ : Pool ℕ) ⟨100, 0⟩ 0 =
        some (pruneaddrs ⟨[⟨0, ⟨0, 0⟩, 5⟩, ⟨1, ⟨0, 0⟩, 5⟩], 60, 10⟩ ⟨100, 0⟩, 1) :=
  have h := pruneaddrs_keepsMoved.1 _ ⟨100, 0⟩ _ _ rfl (by decide) (by decide)
  ⟨h.1, by decide, h.2⟩

end Kivaloo.Serverpool
