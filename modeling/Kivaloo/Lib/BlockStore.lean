import Mathlib

/-!
# Append-only block stores

The storage under a log-structured tree: numbered blocks, each written once.  An APPEND writes
its blocks from the first unused block number on and reports the new first unused number, which
may lie beyond the blocks written.  A FREE below some number may delete any of the blocks below
it, or none.  A store that dies during an APPEND may have written some of its blocks, but the
last block only if it wrote all of them.

After a crash the writer looks for the newest block of some kind by reading backwards from the
last block; `scanDown` is that search, and `scanDown_eq_some` says it finds a block of the kind
when every block above it up to the start is of another kind or absent.
-/

namespace Kivaloo.Lib

/-- A block store: the blocks present, and the first unused block number. -/
structure BlockStore (α : Type*) where
  blocks : ℕ → Option α
  nextblk : ℕ

namespace BlockStore

variable {α : Type*}

/-- No block is present at or after the first unused block number. -/
def WF (S : BlockStore α) : Prop := ∀ b, S.nextblk ≤ b → S.blocks b = none

/-- APPEND of `ps` at the first unused block number; `next` is the first unused block number
the store reports afterwards. -/
def append (S : BlockStore α) (ps : List α) (next : ℕ) : BlockStore α where
  blocks b := if S.nextblk ≤ b ∧ b < S.nextblk + ps.length then ps[b - S.nextblk]? else S.blocks b
  nextblk := next

/-- FREE of the blocks below `n`, as the store may carry it out: any of them are deleted. -/
def Frees (S S' : BlockStore α) (n : ℕ) : Prop :=
  S'.nextblk = S.nextblk ∧ ∀ b, S'.blocks b = S.blocks b ∨ (b < n ∧ S'.blocks b = none)

/-- FREE of the blocks below `n`, carried out in full. -/
def freeBelow (S : BlockStore α) (n : ℕ) : BlockStore α where
  blocks b := if b < n then none else S.blocks b
  nextblk := S.nextblk

/-- The blocks a store holds after dying during the APPEND of `ps`: the other blocks as before,
and some of the appended blocks, the last one only together with all the others. -/
def CrashedAppend (S : BlockStore α) (ps : List α) (S' : BlockStore α) : Prop :=
  (∀ b, ¬ (S.nextblk ≤ b ∧ b < S.nextblk + ps.length) → S'.blocks b = S.blocks b) ∧
  (∀ i (hi : i < ps.length), S'.blocks (S.nextblk + i) = none ∨
    S'.blocks (S.nextblk + i) = some ps[i]) ∧
  (S'.blocks (S.nextblk + ps.length - 1) ≠ none → 0 < ps.length →
    ∀ i (hi : i < ps.length), S'.blocks (S.nextblk + i) = some ps[i])

section Append

variable {S : BlockStore α} {ps : List α} {next : ℕ}

@[simp] theorem append_nextblk : (S.append ps next).nextblk = next := rfl

theorem append_blocks_of_lt {b : ℕ} (hb : b < S.nextblk) : (S.append ps next).blocks b = S.blocks b := by
  simp [append]
  omega

theorem append_blocks_of_ge {b : ℕ} (hb : S.nextblk + ps.length ≤ b) :
    (S.append ps next).blocks b = S.blocks b := by
  simp [append]
  omega

theorem append_blocks_add {i : ℕ} (hi : i < ps.length) :
    (S.append ps next).blocks (S.nextblk + i) = some ps[i] := by
  simp [append, hi]

theorem WF.append (hS : S.WF) (hnext : S.nextblk + ps.length ≤ next) : (S.append ps next).WF := by
  intro b hb
  have : ¬ (S.nextblk ≤ b ∧ b < S.nextblk + ps.length) := by simp at hb; omega
  simp only [BlockStore.append, if_neg this]
  exact hS b (by simp at hb; omega)

end Append

/-- A block that is present lies below the first unused block number. -/
theorem WF.lt_of_eq_some {S : BlockStore α} (hS : S.WF) {b : ℕ} {x : α} (h : S.blocks b = some x) :
    b < S.nextblk := by
  by_contra hb
  rw [hS b (not_lt.mp hb)] at h
  cases h

section Frees

variable {S S' : BlockStore α} {n : ℕ}

theorem Frees.blocks_of_le (h : S.Frees S' n) {b : ℕ} (hb : n ≤ b) : S'.blocks b = S.blocks b := by
  rcases h.2 b with h | ⟨hlt, -⟩
  · exact h
  · omega

theorem Frees.blocks_eq_some (h : S.Frees S' n) {b : ℕ} {x : α} (hx : S'.blocks b = some x) :
    S.blocks b = some x := by
  rcases h.2 b with h | ⟨-, hnone⟩
  · rwa [← h]
  · rw [hnone] at hx
    cases hx

theorem frees_freeBelow (S : BlockStore α) (n : ℕ) : S.Frees (S.freeBelow n) n := by
  refine ⟨rfl, fun b => ?_⟩
  by_cases hb : b < n
  · exact Or.inr ⟨hb, if_pos hb⟩
  · exact Or.inl (if_neg hb)

theorem WF.frees (hS : S.WF) (h : S.Frees S' n) : S'.WF := by
  intro b hb
  rcases h.2 b with h' | ⟨-, hnone⟩
  · rw [h']
    exact hS b (h.1 ▸ hb)
  · exact hnone

end Frees

section Crash

variable {S S' : BlockStore α} {ps : List α}

/-- A block present after the crash was present before, or is one of the appended blocks. -/
theorem CrashedAppend.blocks_eq_some (h : S.CrashedAppend ps S') {b : ℕ} {x : α}
    (hx : S'.blocks b = some x) :
    S.blocks b = some x ∨ ∃ i, ∃ hi : i < ps.length, b = S.nextblk + i ∧ ps[i] = x := by
  by_cases hb : S.nextblk ≤ b ∧ b < S.nextblk + ps.length
  · right
    obtain ⟨i, rfl⟩ := Nat.exists_eq_add_of_le hb.1
    have hi : i < ps.length := by omega
    rcases h.2.1 i hi with hnone | hsome
    · rw [hnone] at hx
      cases hx
    · rw [hsome] at hx
      exact ⟨i, hi, rfl, Option.some.inj hx⟩
  · left
    rwa [← h.1 b hb]

/-- A crash that wrote the last block wrote all the blocks. -/
theorem CrashedAppend.eq_append (h : S.CrashedAppend ps S') (hlast : S'.blocks (S.nextblk + ps.length - 1) ≠ none)
    (hne : 0 < ps.length) (next : ℕ) (b : ℕ) : S'.blocks b = (S.append ps next).blocks b := by
  by_cases hb : S.nextblk ≤ b ∧ b < S.nextblk + ps.length
  · obtain ⟨i, rfl⟩ := Nat.exists_eq_add_of_le hb.1
    have hi : i < ps.length := by omega
    rw [h.2.2 hlast hne i hi, append_blocks_add hi]
  · rw [h.1 b hb]
    simp [BlockStore.append, hb]

/-- A store that died after writing the first `k` blocks of an APPEND, `k` short of all of
them, holds a crashed APPEND. -/
theorem WF.crashedAppend_take (hS : S.WF) {k : ℕ} (hk : k < ps.length) (next : ℕ) :
    S.CrashedAppend ps (S.append (ps.take k) next) := by
  have hlen : (ps.take k).length = k := List.length_take_of_le hk.le
  refine ⟨fun b hb => ?_, fun i hi => ?_, fun hlast _ => ?_⟩
  · -- outside the APPEND nothing changed
    have : ¬(S.nextblk ≤ b ∧ b < S.nextblk + (ps.take k).length) := by omega
    simp only [BlockStore.append]
    rw [if_neg this]
  · by_cases hik : i < k
    · -- the first `k` blocks were written
      right
      rw [append_blocks_add (by omega : i < (ps.take k).length), List.getElem_take]
    · -- the rest were not
      left
      have : ¬(S.nextblk ≤ S.nextblk + i ∧ S.nextblk + i < S.nextblk + (ps.take k).length) := by
        omega
      simp only [BlockStore.append, this, if_false]
      exact hS _ (by omega)
  · -- the last block is one of those not written
    exfalso
    apply hlast
    have : ¬(S.nextblk ≤ S.nextblk + ps.length - 1 ∧
        S.nextblk + ps.length - 1 < S.nextblk + (ps.take k).length) := by omega
    simp only [BlockStore.append, this, if_false]
    exact hS _ (by omega)

end Crash

end BlockStore

/-! ## Reading backwards for the newest block of a kind -/

variable {α : Type*}

/-- The first block from `start` down to block zero that is present and of the kind `p`. -/
def scanDown (p : α → Bool) (get : ℕ → Option α) : ℕ → Option ℕ
  | 0 => if (get 0).any p then some 0 else none
  | b + 1 => if (get (b + 1)).any p then some (b + 1) else scanDown p get b

/-- The scan finds the block `r` of the kind `p` when no block above it, up to the start, is
present and of that kind. -/
theorem scanDown_eq_some {p : α → Bool} {get : ℕ → Option α} {r : ℕ} (hr : (get r).any p)
    {start : ℕ} (hle : r ≤ start) (habove : ∀ b, r < b → b ≤ start → (get b).any p = false) :
    scanDown p get start = some r := by
  induction start with
  | zero =>
    have : r = 0 := by omega
    subst this
    simp [scanDown, hr]
  | succ b ih =>
    rcases Nat.lt_or_eq_of_le hle with hlt | rfl
    · rw [scanDown, if_neg (by simp [habove (b + 1) hlt le_rfl])]
      exact ih (by omega) fun b' h₁ h₂ => habove b' h₁ (by omega)
    · simp [scanDown, hr]

end Kivaloo.Lib
