import Mathlib

/-!
# Transition systems

A system is given by the predicate of its initial states and its step relation; its reachable
states are those a finite run from an initial state ends in.  A property that holds initially and
that every step keeps is an inductive invariant and holds in every reachable state
(`Reachable.invariant`); a consequence of an invariant then holds there too
(`Reachable.of_invariant`).  An invariant that rests on an assumption about the state, which no
step can make true, holds wherever the assumption does (`Reachable.invariant_of_anti`).  A scheduler that only makes steps, run from a reachable state,
ends in one (`Reachable.driven`).
-/

namespace Kivaloo.Lib

variable {σ : Type*}

/-- The states reachable from a state satisfying `init` by steps of `step`. -/
inductive Reachable (init : σ → Prop) (step : σ → σ → Prop) : σ → Prop
  | init {s : σ} : init s → Reachable init step s
  | step {s s' : σ} : Reachable init step s → step s s' → Reachable init step s'

namespace Reachable

variable {init : σ → Prop} {step : σ → σ → Prop}

/-- An inductive invariant holds in every reachable state. -/
theorem invariant {P : σ → Prop} (hinit : ∀ s, init s → P s)
    (hstep : ∀ s s', P s → step s s' → P s') {s : σ} (h : Reachable init step s) : P s := by
  induction h with
  | init hs => exact hinit _ hs
  | step _ hst ih => exact hstep _ _ ih hst

/-- What follows from an inductive invariant holds in every reachable state. -/
theorem of_invariant {P Q : σ → Prop} (hinit : ∀ s, init s → P s)
    (hstep : ∀ s s', P s → step s s' → P s') (hPQ : ∀ s, P s → Q s) {s : σ}
    (h : Reachable init step s) : Q s :=
  hPQ s (h.invariant hinit hstep)

/-- An invariant that needs an assumption `A` on the state holds in every reachable state where
`A` holds, when every step that ends in a state satisfying `A` starts in one (as for the bounds
of a log that only grows). -/
theorem invariant_of_anti {A P : σ → Prop} (hanti : ∀ s s', step s s' → A s' → A s)
    (hinit : ∀ s, init s → A s → P s) (hstep : ∀ s s', P s → step s s' → A s' → P s')
    {s : σ} (h : Reachable init step s) (hA : A s) : P s := by
  induction h with
  | init hs => exact hinit _ hs hA
  | step _ hst ih => exact hstep _ _ (ih (hanti _ _ hst hA)) hst hA

/-- A state one step from a reachable state is reachable. -/
theorem tail {s s' : σ} (h : Reachable init step s) (hst : step s s') :
    Reachable init step s' :=
  .step h hst

end Reachable

/-- The state a scheduler reaches in at most `k` moves: `next` picks the state after the next
move, or `none` when it has no move to make. -/
def drive (next : σ → Option σ) : ℕ → σ → σ
  | 0, s => s
  | k + 1, s =>
    match next s with
    | none => s
    | some s' => drive next k s'

/-- A scheduler whose every move is a step stays among the reachable states. -/
theorem Reachable.driven {init : σ → Prop} {step : σ → σ → Prop} {next : σ → Option σ}
    (hnext : ∀ s s', next s = some s' → step s s') :
    ∀ (k : ℕ) {s : σ}, Reachable init step s → Reachable init step (drive next k s)
  | 0, _, h => h
  | k + 1, s, h => by
    rw [drive]
    cases hs : next s with
    | none => exact h
    | some s' => exact Reachable.driven hnext k (h.tail (hnext s s' hs))

end Kivaloo.Lib
