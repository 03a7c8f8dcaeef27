import Mathlib
import Kivaloo.Kvlds.Key
import Kivaloo.Lib.Transition

/-!
# Storing a series of pairs: `kvlds_multiset`

`kvlds_multiset` (lib/util/kvlds.c) asks a callback for key-value pairs and stores each with a
SET request, keeping at most 4096 requests in flight; `callback_multiset` runs as each SET
completes, asks for more pairs and sets `done` once nothing is in flight.  The caller then waits
with `events_spin(&C.done)`, which returns only once `done` is set, and returns `C.failed`.

The callback is given by its answers: `ans n` is what its `n`-th call returns.  A run of
`kvlds_multiset` is the state after the first `multiset_send`, followed by completions of the
SETs in flight in any order, each succeeding or failing (`MultisetStep`).  The worlds carry, as
ghost state, which pairs are in flight, which were stored and which were lost.

Every reachable world keeps `MultisetInv`.  When the callback's first answer is a pair, every
reachable world has a SET in flight or `done` set, a world with neither flag can always step,
and every run ends when the callback does (`MultisetStep.remaining_lt`); once `done` is set,
`kvlds_multiset` returns 0 exactly when every pair was stored (`result_eq_zero_iff`).  When the
first answer is the end of the pairs or an error, no SET is ever sent and `done` is never set:
the world after the first `multiset_send` has no step at all (`multisetStart_stuck`), so
`events_spin` has nothing that could end its wait.
-/

namespace Kivaloo.Util

open Kivaloo.Kvlds Kivaloo.Lib

/-- What one call of the pair callback gives back: a pair, `key == NULL` for no more pairs, or
a nonzero return. -/
inductive PairAnswer
  | pair (key value : KVLDSKey)
  | nomore
  | error
deriving DecidableEq

/-- The fields of `struct multisetcookie` that change; `Q`, `callback` and `cookie` stay fixed
for the whole call. -/
structure MultisetCookie where
  inflight : ℕ
  eof : Bool
  failed : Bool
  done : Bool
deriving DecidableEq

/-- The pairs among the callback's first `n` answers, in order. -/
def answeredPairs (ans : ℕ → PairAnswer) : ℕ → List (KVLDSKey × KVLDSKey)
  | 0 => []
  | n + 1 =>
    answeredPairs ans n ++
      match ans n with
      | .pair k v => [(k, v)]
      | _ => []

/-- The `while (C->inflight < 4096)` loop of `multiset_send`, calling the callback from its
`n`-th answer on.  It returns the cookie, the number of calls made by then and the pairs sent, in
order; `proto_kvlds_request_set` is taken to succeed.  Each round adds one to `inflight`, so
`4096 - inflight` rounds of fuel are as many as the loop can make. -/
def multisetSendLoop (ans : ℕ → PairAnswer) :
    ℕ → MultisetCookie → ℕ → MultisetCookie × ℕ × List (KVLDSKey × KVLDSKey)
  | 0, C, n => (C, n, [])
  | fuel + 1, C, n =>
    if C.inflight < 4096 then
      match ans n with
      | .error => ({ C with failed := true }, n + 1, [])
      | .nomore => ({ C with eof := true }, n + 1, [])
      | .pair k v =>
        let r := multisetSendLoop ans fuel { C with inflight := C.inflight + 1 } (n + 1)
        (r.1, r.2.1, (k, v) :: r.2.2)
    else (C, n, [])

/-- `multiset_send(C)`: nothing once the pairs have ended or a request has failed. -/
def multisetSend (ans : ℕ → PairAnswer) (C : MultisetCookie) (n : ℕ) :
    MultisetCookie × ℕ × List (KVLDSKey × KVLDSKey) :=
  if C.eof then (C, n, [])
  else if C.failed then (C, n, [])
  else multisetSendLoop ans (4096 - C.inflight) C n

/-- `callback_multiset(C, failed)`: one SET has completed. -/
def callbackMultiset (ans : ℕ → PairAnswer) (C : MultisetCookie) (n : ℕ) (failed : Bool) :
    MultisetCookie × ℕ × List (KVLDSKey × KVLDSKey) :=
  let C₁ := { C with inflight := C.inflight - 1, failed := C.failed || failed }
  let r := multisetSend ans C₁ n
  (if r.1.inflight = 0 then { r.1 with done := true } else r.1, r.2.1, r.2.2)

/-- The state of a call of `kvlds_multiset`: the cookie, the number of callback calls made, and
as ghost state the pairs whose SETs are in flight, were stored and failed. -/
structure MultisetWorld where
  C : MultisetCookie
  calls : ℕ
  pending : List (KVLDSKey × KVLDSKey)
  stored : List (KVLDSKey × KVLDSKey)
  lost : List (KVLDSKey × KVLDSKey)

/-- The world after `kvlds_multiset`'s first `multiset_send`, from the cookie it builds. -/
def multisetStart (ans : ℕ → PairAnswer) : MultisetWorld :=
  let r := multisetSend ans ⟨0, false, false, false⟩ 0
  ⟨r.1, r.2.1, r.2.2, [], []⟩

/-- The SET of `p` completes, successfully unless `failed`, and `callback_multiset` runs. -/
def MultisetWorld.complete (ans : ℕ → PairAnswer) (W : MultisetWorld)
    (p : KVLDSKey × KVLDSKey) (failed : Bool) : MultisetWorld :=
  let r := callbackMultiset ans W.C W.calls failed
  ⟨r.1, r.2.1, W.pending.erase p ++ r.2.2, if failed then W.stored else p :: W.stored,
    if failed then p :: W.lost else W.lost⟩

/-- While `events_spin` waits, any SET in flight may complete, with either outcome. -/
inductive MultisetStep (ans : ℕ → PairAnswer) : MultisetWorld → MultisetWorld → Prop
  | complete {W : MultisetWorld} {p : KVLDSKey × KVLDSKey} (hp : p ∈ W.pending) (failed : Bool) :
      MultisetStep ans W (W.complete ans p failed)

/-- What `kvlds_multiset` returns once `done` is set: `C.failed`. -/
def MultisetWorld.result (W : MultisetWorld) : ℤ := if W.C.failed then 1 else 0

/-- Every pair the callback gave was stored: its answers were pairs up to one reporting no more
pairs, and each of those pairs was stored. -/
def AllStored (ans : ℕ → PairAnswer) (W : MultisetWorld) : Prop :=
  ∃ n, ans n = .nomore ∧ (∀ i < n, ∃ k v, ans i = .pair k v) ∧ W.stored.Perm (answeredPairs ans n)

/-! ### The pairs answered -/

@[simp] theorem answeredPairs_succ_pair {ans : ℕ → PairAnswer} {n : ℕ} {k v : KVLDSKey}
    (h : ans n = .pair k v) : answeredPairs ans (n + 1) = answeredPairs ans n ++ [(k, v)] := by
  simp [answeredPairs, h]

@[simp] theorem answeredPairs_succ_nomore {ans : ℕ → PairAnswer} {n : ℕ}
    (h : ans n = .nomore) : answeredPairs ans (n + 1) = answeredPairs ans n := by
  simp [answeredPairs, h]

@[simp] theorem answeredPairs_succ_error {ans : ℕ → PairAnswer} {n : ℕ}
    (h : ans n = .error) : answeredPairs ans (n + 1) = answeredPairs ans n := by
  simp [answeredPairs, h]

/-- Later answers only add pairs. -/
theorem length_answeredPairs_mono (ans : ℕ → PairAnswer) {m n : ℕ} (h : m ≤ n) :
    (answeredPairs ans m).length ≤ (answeredPairs ans n).length := by
  induction h with
  | refl => rfl
  | step _ ih => simp only [answeredPairs, List.length_append]; omega

/-! ### The send loop -/

/-- How the send loop ends, with the `j` pairs it sent: with `inflight` at 4096, at an answer
reporting no more pairs, or at an error; every answer before the last was a pair. -/
theorem multisetSendLoop_cases (ans : ℕ → PairAnswer) :
    ∀ fuel C n, 4096 ≤ C.inflight + fuel →
      let r := multisetSendLoop ans fuel C n
      r.2.2.length ≤ fuel ∧ answeredPairs ans r.2.1 = answeredPairs ans n ++ r.2.2 ∧
      (∀ i < r.2.2.length, ∃ k v, ans (n + i) = .pair k v) ∧
      ((r.2.1 = n + r.2.2.length ∧ 4096 ≤ C.inflight + r.2.2.length ∧
          r.1 = { C with inflight := C.inflight + r.2.2.length }) ∨
        (r.2.1 = n + r.2.2.length + 1 ∧ ans (n + r.2.2.length) = .nomore ∧
          r.1 = { C with inflight := C.inflight + r.2.2.length, eof := true }) ∨
        (r.2.1 = n + r.2.2.length + 1 ∧ ans (n + r.2.2.length) = .error ∧
          r.1 = { C with inflight := C.inflight + r.2.2.length, failed := true })) := by
  intro fuel
  induction fuel with
  | zero =>
    intro C n hfuel
    simp [multisetSendLoop]
    omega
  | succ fuel ih =>
    intro C n hfuel
    by_cases hlt : C.inflight < 4096
    swap
    · -- the loop test fails at once
      simp only [multisetSendLoop, if_neg hlt]
      simp; omega
    cases hans : ans n with
    | error => simp [multisetSendLoop, hlt, hans]
    | nomore => simp [multisetSendLoop, hlt, hans]
    | pair k v =>
      -- one pair sent, then the loop goes on from the next answer with one more in flight
      obtain ⟨hlen, hpairs, hans', hend⟩ := ih { C with inflight := C.inflight + 1 } (n + 1)
        (by simp; omega)
      set r := multisetSendLoop ans fuel { C with inflight := C.inflight + 1 } (n + 1) with hr
      dsimp only at hend
      simp only [multisetSendLoop, if_pos hlt, hans, ← hr, List.length_cons]
      refine ⟨by omega, ?_, ?_, ?_⟩
      · rw [hpairs, answeredPairs_succ_pair hans, List.append_assoc, List.singleton_append]
      · intro i hi
        rcases i with _ | i
        · exact ⟨k, v, hans⟩
        · obtain ⟨k', v', h⟩ := hans' i (by omega)
          exact ⟨k', v', by rw [← h]; congr 1; omega⟩
      · have hn : n + 1 + r.2.2.length = n + (r.2.2.length + 1) := by omega
        rw [hn] at hend
        rcases hend with ⟨h₁, h₂, h₃⟩ | ⟨h₁, h₂, h₃⟩ | ⟨h₁, h₂, h₃⟩
        · exact .inl ⟨by omega, by omega, by rw [h₃]; simp; omega⟩
        · exact .inr (.inl ⟨by omega, h₂, by rw [h₃]; simp; omega⟩)
        · exact .inr (.inr ⟨by omega, h₂, by rw [h₃]; simp; omega⟩)

/-- The answers the loop read before its last were pairs. -/
theorem pair_of_mem_range {ans : ℕ → PairAnswer} {n j : ℕ}
    (h : ∀ i < j, ∃ k v, ans (n + i) = .pair k v) {i : ℕ} (h₁ : n ≤ i) (h₂ : i < n + j) :
    ∃ k v, ans i = .pair k v := by
  obtain ⟨k, v, hkv⟩ := h (i - n) (by omega)
  exact ⟨k, v, by rwa [Nat.add_sub_cancel' h₁] at hkv⟩

/-- Among the answers the loop read, only the last can be other than a pair: such an answer was
read exactly when the loop stopped at it. -/
theorem exists_answer_iff {ans : ℕ → PairAnswer} {n j m : ℕ}
    (h : ∀ i < j, ∃ k v, ans (n + i) = .pair k v) {a : PairAnswer} (ha : ∀ k v, a ≠ .pair k v)
    (hm : m ≤ n + j + 1) :
    (∃ i, n ≤ i ∧ i < m ∧ ans i = a) ↔ m = n + j + 1 ∧ ans (n + j) = a := by
  constructor
  · rintro ⟨i, h₁, h₂, hi⟩
    -- an answer before the last was a pair, so the one found is the last
    have hlast : ¬ i < n + j := by
      intro hlt
      obtain ⟨k, v, hkv⟩ := pair_of_mem_range h h₁ hlt
      exact ha k v (hi ▸ hkv)
    obtain rfl : i = n + j := by omega
    exact ⟨by omega, hi⟩
  · rintro ⟨rfl, hlast⟩
    exact ⟨n + j, by omega, by omega, hlast⟩

/-- What one `multiset_send` from cookie `C` at the callback's `n`-th answer leaves in `r`. -/
structure SendResult (ans : ℕ → PairAnswer) (C : MultisetCookie) (n : ℕ)
    (r : MultisetCookie × ℕ × List (KVLDSKey × KVLDSKey)) : Prop where
  done : r.1.done = C.done
  inflight : r.1.inflight = C.inflight + r.2.2.length
  le : r.1.inflight ≤ 4096
  calls_ge : n ≤ r.2.1
  /-- Each pair sent took a call of the callback. -/
  calls_sent : n + r.2.2.length ≤ r.2.1
  answered : answeredPairs ans r.2.1 = answeredPairs ans n ++ r.2.2
  /-- The loop stops only at 4096 in flight, at the end of the pairs or at a failure. -/
  stop : 4096 ≤ r.1.inflight ∨ r.1.eof = true ∨ r.1.failed = true
  eof : r.1.eof = true ↔ C.eof = true ∨ ∃ i, n ≤ i ∧ i < r.2.1 ∧ ans i = .nomore
  failed : r.1.failed = true ↔ C.failed = true ∨ ∃ i, n ≤ i ∧ i < r.2.1 ∧ ans i = .error
  /-- Once the pairs have ended or a request has failed, the callback is not called again. -/
  idle : C.eof = true ∨ C.failed = true → r.2.1 = n
  pairs : ∀ i, n ≤ i → i + 1 < r.2.1 → ∃ k v, ans i = .pair k v

/-- `multiset_send` from a cookie with at most 4096 requests in flight. -/
theorem multisetSend_spec (ans : ℕ → PairAnswer) {C : MultisetCookie} (n : ℕ)
    (hC : C.inflight ≤ 4096) : SendResult ans C n (multisetSend ans C n) := by
  by_cases hidle : C.eof = true ∨ C.failed = true
  · -- nothing is sent
    have hr : multisetSend ans C n = (C, n, []) := by
      rcases hidle with h | h <;> simp [multisetSend, h]
    rw [hr]
    refine ⟨rfl, by simp, hC, le_rfl, by simp, by simp, ?_, ?_, ?_, fun _ => rfl, ?_⟩
    · rcases hidle with h | h <;> simp [h]
    · rw [iff_self_or]
      rintro ⟨i, h₁, h₂, -⟩
      exact absurd h₂ (by simpa using h₁)
    · rw [iff_self_or]
      rintro ⟨i, h₁, h₂, -⟩
      exact absurd h₂ (by simpa using h₁)
    · intro i h₁ h₂
      simp only at h₂
      omega
  have heof : C.eof = false := by simpa using fun h => hidle (.inl h)
  have hfailed : C.failed = false := by simpa using fun h => hidle (.inr h)
  have hr : multisetSend ans C n = multisetSendLoop ans (4096 - C.inflight) C n := by
    simp [multisetSend, heof, hfailed]
  rw [hr]
  set r := multisetSendLoop ans (4096 - C.inflight) C n with hr'
  obtain ⟨hlen, hanswered, hpairs, hend⟩ :=
    multisetSendLoop_cases ans (4096 - C.inflight) C n (by omega)
  rw [← hr'] at hlen hanswered hpairs hend
  have hpairs' : ∀ i, n ≤ i → i + 1 < r.2.1 → ∃ k v, ans i = .pair k v := by
    intro i h₁ h₂
    refine pair_of_mem_range hpairs h₁ ?_
    rcases hend with ⟨h, -⟩ | ⟨h, -⟩ | ⟨h, -⟩ <;> omega
  have hnomore : ∀ k v, PairAnswer.nomore ≠ .pair k v := fun _ _ h => by cases h
  have herror : ∀ k v, PairAnswer.error ≠ .pair k v := fun _ _ h => by cases h
  rcases hend with ⟨hcalls, hfull, hC'⟩ | ⟨hcalls, hlast, hC'⟩ | ⟨hcalls, hlast, hC'⟩
  · -- 4096 requests in flight
    refine ⟨by rw [hC'], by rw [hC'], by rw [hC']; simp; omega, by omega, by omega, hanswered,
      by rw [hC']; simp [hfull], ?_, ?_, by simp [heof, hfailed], hpairs'⟩
    · rw [hC', heof, exists_answer_iff hpairs hnomore (by omega)]
      simp [hcalls]
    · rw [hC', hfailed, exists_answer_iff hpairs herror (by omega)]
      simp [hcalls]
  · -- the pairs have ended
    refine ⟨by rw [hC'], by rw [hC'], by rw [hC']; simp; omega, by omega, by omega, hanswered,
      by rw [hC']; simp, ?_, ?_, by simp [heof, hfailed], hpairs'⟩
    · rw [hC', exists_answer_iff hpairs hnomore (by omega)]
      simp [hcalls, hlast]
    · rw [hC', hfailed, exists_answer_iff hpairs herror (by omega)]
      simp [hlast]
  · -- an error from the callback
    refine ⟨by rw [hC'], by rw [hC'], by rw [hC']; simp; omega, by omega, by omega, hanswered,
      by rw [hC']; simp, ?_, ?_, by simp [heof, hfailed], hpairs'⟩
    · rw [hC', heof, exists_answer_iff hpairs hnomore (by omega)]
      simp [hlast]
    · rw [hC', exists_answer_iff hpairs herror (by omega)]
      simp [hcalls, hlast]

/-! ### The invariant -/

/-- The invariant of `kvlds_multiset`'s worlds: `inflight` counts the SETs in flight and stays at
most 4096, every pair the callback gave is stored, lost or in flight, the callback was not called
after an answer that was not a pair, `eof` and `failed` record why sending stopped, and `done` is
set only with nothing in flight. -/
structure MultisetInv (ans : ℕ → PairAnswer) (W : MultisetWorld) : Prop where
  count : W.C.inflight = W.pending.length
  le : W.C.inflight ≤ 4096
  perm : (W.stored ++ W.lost ++ W.pending).Perm (answeredPairs ans W.calls)
  pairs : ∀ i, i + 1 < W.calls → ∃ k v, ans i = .pair k v
  eof : W.C.eof = true ↔ ∃ i < W.calls, ans i = .nomore
  failed : W.C.failed = true ↔ W.lost ≠ [] ∨ ∃ i < W.calls, ans i = .error
  stop : W.C.inflight < 4096 → W.C.eof = true ∨ W.C.failed = true
  done : W.C.done = true → W.C.inflight = 0

/-- Flags that say "some answer below `m`, or some answer from `n` to `m`". -/
theorem exists_lt_iff_or {P : ℕ → Prop} {n m : ℕ} (h : n ≤ m) :
    (∃ i < m, P i) ↔ (∃ i < n, P i) ∨ ∃ i, n ≤ i ∧ i < m ∧ P i := by
  constructor
  · rintro ⟨i, hi, hP⟩
    by_cases hin : i < n
    · exact .inl ⟨i, hin, hP⟩
    · exact .inr ⟨i, by omega, hi, hP⟩
  · rintro (⟨i, hi, hP⟩ | ⟨i, -, hi, hP⟩)
    · exact ⟨i, by omega, hP⟩
    · exact ⟨i, hi, hP⟩

theorem multisetStart_inv (ans : ℕ → PairAnswer) : MultisetInv ans (multisetStart ans) := by
  have S := multisetSend_spec ans (C := ⟨0, false, false, false⟩) 0 (by simp)
  simp only [multisetStart]
  refine ⟨by simpa using S.inflight, S.le, ?_, fun i h => S.pairs i (Nat.zero_le i) h, ?_, ?_,
    ?_, ?_⟩
  · simp [S.answered, answeredPairs]
  · simpa using S.eof
  · simpa using S.failed
  · intro h
    dsimp only at h ⊢
    rcases S.stop with h' | h' | h'
    · omega
    · exact .inl h'
    · exact .inr h'
  · simp [S.done]

/-- `callback_multiset` runs `multiset_send` from the cookie with one fewer request in flight and
the SET's failure recorded. -/
theorem complete_eq (ans : ℕ → PairAnswer) (W : MultisetWorld) (p : KVLDSKey × KVLDSKey)
    (failed : Bool) :
    let r := multisetSend ans
      { W.C with inflight := W.C.inflight - 1, failed := W.C.failed || failed } W.calls
    W.complete ans p failed =
      ⟨if r.1.inflight = 0 then { r.1 with done := true } else r.1, r.2.1,
        W.pending.erase p ++ r.2.2, if failed then W.stored else p :: W.stored,
        if failed then p :: W.lost else W.lost⟩ := rfl

/-- The ghost lists after a completion: `p` moves from the SETs in flight to the stored or the
lost pairs, and the pairs just sent join those in flight. -/
theorem perm_complete {stored lost pending sent answered : List (KVLDSKey × KVLDSKey)}
    {p : KVLDSKey × KVLDSKey} (hp : p ∈ pending)
    (h : (stored ++ lost ++ pending).Perm answered) (failed : Bool) :
    ((if failed then stored else p :: stored) ++ (if failed then p :: lost else lost) ++
      (pending.erase p ++ sent)).Perm (answered ++ sent) := by
  have hpend : pending.Perm (p :: pending.erase p) := List.perm_cons_erase hp
  -- both sides are `p`, then the old lists without it, then the pairs just sent
  have hold : (stored ++ lost ++ pending).Perm (p :: (stored ++ lost ++ pending.erase p)) :=
    ((hpend.append_left _).trans List.perm_middle)
  have hnew : ((if failed then stored else p :: stored) ++ (if failed then p :: lost else lost) ++
      pending.erase p).Perm (p :: (stored ++ lost ++ pending.erase p)) := by
    cases failed <;> simp
  rw [← List.append_assoc]
  exact ((hnew.trans (hold.symm.trans h)).append_right sent)

/-- What `if (C->inflight == 0) C->done = 1;` leaves of the cookie. -/
theorem setDone_fields (c : MultisetCookie) :
    let c' := if c.inflight = 0 then { c with done := true } else c
    c'.inflight = c.inflight ∧ c'.eof = c.eof ∧ c'.failed = c.failed ∧
      (c'.done = true ↔ c.inflight = 0 ∨ c.done = true) := by
  split_ifs with h <;> simp [h]

/-- Every completion keeps the invariant. -/
theorem MultisetStep.inv {ans : ℕ → PairAnswer} {W W' : MultisetWorld}
    (hinv : MultisetInv ans W) (h : MultisetStep ans W W') : MultisetInv ans W' := by
  obtain ⟨hp, failed⟩ := h
  have hpos : 0 < W.C.inflight := by
    rw [hinv.count]
    exact List.length_pos_of_mem hp
  have hdone : W.C.done = false := by
    cases hd : W.C.done
    · rfl
    · exact absurd (hinv.done hd) (by omega)
  set C₁ : MultisetCookie :=
    { W.C with inflight := W.C.inflight - 1, failed := W.C.failed || failed } with hC₁
  have S := multisetSend_spec ans (C := C₁) W.calls (by have := hinv.le; simp [hC₁]; omega)
  rw [complete_eq]
  set r := multisetSend ans C₁ W.calls
  -- the cookie `callback_multiset` leaves is `r.1` with `done` set when nothing is in flight
  obtain ⟨hinf, heof, hfail, hdn⟩ := setDone_fields r.1
  generalize (if r.1.inflight = 0 then { r.1 with done := true } else r.1) = C'
    at hinf heof hfail hdn ⊢
  constructor <;> dsimp only
  · rw [hinf, S.inflight, List.length_append, List.length_erase_of_mem hp, ← hinv.count]
  · rw [hinf]
    exact S.le
  · rw [S.answered]
    exact perm_complete hp hinv.perm failed
  · -- the callback is called again only while its answers are pairs
    intro i hi
    by_cases hold : i + 1 < W.calls
    · exact hinv.pairs i hold
    by_cases hnew : W.calls ≤ i
    · exact S.pairs i hnew hi
    have hcalled : r.2.1 ≠ W.calls := by omega
    cases hans : ans i with
    | pair k v => exact ⟨k, v, rfl⟩
    | nomore =>
      exact absurd (S.idle (.inl (hinv.eof.mpr ⟨i, by omega, hans⟩))) hcalled
    | error =>
      exact absurd (S.idle (.inr (by simp [hC₁, hinv.failed.mpr (.inr ⟨i, by omega, hans⟩)])))
        hcalled
  · rw [heof, S.eof, exists_lt_iff_or S.calls_ge, ← hinv.eof]
  · rw [hfail, S.failed, exists_lt_iff_or S.calls_ge]
    cases failed <;> simp [hC₁, hinv.failed, or_assoc]
  · intro hlt
    rw [heof, hfail]
    rcases S.stop with h | h | h
    · omega
    · exact .inl h
    · exact .inr h
  · -- `done` was clear, so it is set exactly when nothing is left in flight
    intro hd
    rw [hinf]
    rcases hdn.mp hd with h | h
    · exact h
    · rw [S.done, hC₁, hdone] at h
      cases h

/-- Every world a run of `kvlds_multiset` reaches keeps the invariant. -/
theorem reachable_multisetInv {ans : ℕ → PairAnswer} {W : MultisetWorld}
    (h : Reachable (· = multisetStart ans) (MultisetStep ans) W) : MultisetInv ans W :=
  h.invariant (fun _ hs => hs ▸ multisetStart_inv ans) (fun _ _ hinv hst => hst.inv hinv)

/-! ### What a run of `kvlds_multiset` does -/

/-- After a completion, a SET is in flight or `done` is set. -/
theorem complete_inflight_pos_or_done (ans : ℕ → PairAnswer) (W : MultisetWorld)
    (p : KVLDSKey × KVLDSKey) (failed : Bool) :
    0 < (W.complete ans p failed).C.inflight ∨ (W.complete ans p failed).C.done = true := by
  rw [complete_eq]
  obtain ⟨hinf, -, -, hdn⟩ := setDone_fields (multisetSend ans
    { W.C with inflight := W.C.inflight - 1, failed := W.C.failed || failed } W.calls).1
  dsimp only
  rw [hinf, hdn]
  omega

/-- A completion takes one SET out of flight and adds those just sent, each of which took a call
of the callback. -/
theorem MultisetStep.pending_calls {ans : ℕ → PairAnswer} {W W' : MultisetWorld}
    (hinv : MultisetInv ans W) (h : MultisetStep ans W W') :
    ∃ p ∈ W.pending, ∃ sent : List (KVLDSKey × KVLDSKey),
      W'.pending = W.pending.erase p ++ sent ∧ W.calls + sent.length ≤ W'.calls := by
  obtain ⟨hp, failed⟩ := h
  have S := multisetSend_spec ans
    (C := { W.C with inflight := W.C.inflight - 1, failed := W.C.failed || failed }) W.calls
    (by have := hinv.le; simp; omega)
  exact ⟨_, hp, _, rfl, S.calls_sent⟩

/-- When the callback's first answer is a pair, the first `multiset_send` leaves a SET in
flight. -/
theorem multisetStart_inflight_pos {ans : ℕ → PairAnswer} {k v : KVLDSKey}
    (h0 : ans 0 = .pair k v) : 0 < (multisetStart ans).C.inflight := by
  have S := multisetSend_spec ans (C := ⟨0, false, false, false⟩) 0 (by simp)
  simp only [multisetStart]
  -- the callback was called at least once, since `multiset_send` stops only after calling it
  have hcalls : 1 ≤ (multisetSend ans ⟨0, false, false, false⟩ 0).2.1 := by
    rcases S.stop with h | h | h
    · have := S.inflight
      have := S.calls_sent
      simp only [zero_add] at *
      omega
    · obtain ⟨i, -, hi, -⟩ := (S.eof.mp h).resolve_left (by simp)
      omega
    · obtain ⟨i, -, hi, -⟩ := (S.failed.mp h).resolve_left (by simp)
      omega
  have hlen := length_answeredPairs_mono ans hcalls
  rw [S.answered] at hlen
  rw [S.inflight]
  simp [answeredPairs, h0] at hlen ⊢
  omega

/-- When the callback's first answer is a pair, every world a run of `kvlds_multiset` reaches
has a SET in flight or `done` set. -/
theorem inflight_pos_or_done {ans : ℕ → PairAnswer} {k v : KVLDSKey} (h0 : ans 0 = .pair k v)
    {W : MultisetWorld} (h : Reachable (· = multisetStart ans) (MultisetStep ans) W) :
    0 < W.C.inflight ∨ W.C.done = true := by
  induction h with
  | init hs => exact hs ▸ .inl (multisetStart_inflight_pos h0)
  | step _ hst _ =>
    obtain ⟨-, failed⟩ := hst
    exact complete_inflight_pos_or_done ans _ _ failed

/-- Twice the answers left before the callback's end at `N`, plus the SETs in flight. -/
def MultisetWorld.remaining (N : ℕ) (W : MultisetWorld) : ℕ :=
  2 * (N + 1 - W.calls) + W.pending.length

/-- When the callback's `N`-th answer is not a pair, every completion lowers `remaining N`: no run
of `kvlds_multiset` is infinite. -/
theorem MultisetStep.remaining_lt {ans : ℕ → PairAnswer} {N : ℕ}
    (hN : ∀ k v, ans N ≠ .pair k v) {W W' : MultisetWorld} (hinv : MultisetInv ans W)
    (h : MultisetStep ans W W') : W'.remaining N < W.remaining N := by
  have hinv' := h.inv hinv
  obtain ⟨p, hp, sent, hpend, hcalls⟩ := h.pending_calls hinv
  -- the callback is not called past its end
  have hend : W'.calls ≤ N + 1 := by
    by_contra hlt
    obtain ⟨k, v, hkv⟩ := hinv'.pairs N (by omega)
    exact hN k v hkv
  have hpos := List.length_pos_of_mem hp
  simp only [MultisetWorld.remaining, hpend, List.length_append, List.length_erase_of_mem hp]
  omega

/-- Once `done` is set, `kvlds_multiset` returns 0 exactly when every pair was stored. -/
theorem result_eq_zero_iff {ans : ℕ → PairAnswer} {W : MultisetWorld}
    (h : Reachable (· = multisetStart ans) (MultisetStep ans) W) (hdone : W.C.done = true) :
    W.result = 0 ↔ AllStored ans W := by
  have hinv := reachable_multisetInv h
  have hpend : W.pending = [] := by
    rw [← List.length_eq_zero_iff, ← hinv.count]
    exact hinv.done hdone
  have hperm := hinv.perm
  rw [hpend, List.append_nil] at hperm
  -- the callback is not called after an answer reporting no more pairs
  have hcalls : ∀ n, ans n = .nomore → W.calls ≤ n + 1 := by
    intro n hn
    by_contra hlt
    obtain ⟨k, v, hkv⟩ := hinv.pairs n (by omega)
    rw [hkv] at hn
    cases hn
  constructor
  · intro hres
    have hfailed : W.C.failed = false := by
      revert hres
      simp [MultisetWorld.result]
    have heof : W.C.eof = true := by
      rcases hinv.stop (by rw [hinv.count, hpend]; simp) with h | h
      · exact h
      · rw [hfailed] at h
        cases h
    obtain ⟨n, hn, hans⟩ := hinv.eof.mp heof
    have hlost : W.lost = [] := by
      by_contra hne
      rw [hinv.failed.mpr (.inl hne)] at hfailed
      cases hfailed
    have hcalls' : W.calls = n + 1 := by have := hcalls n hans; omega
    refine ⟨n, hans, fun i hi => hinv.pairs i (by omega), ?_⟩
    rw [hlost, List.append_nil, hcalls', answeredPairs_succ_nomore hans] at hperm
    exact hperm
  · rintro ⟨n, hans, hpairs, hstored⟩
    have hle := hcalls n hans
    simp only [MultisetWorld.result, ite_eq_right_iff, one_ne_zero, imp_false,
      Bool.not_eq_true]
    cases hf : W.C.failed
    · rfl
    rcases hinv.failed.mp hf with hlost | ⟨i, hi, herr⟩
    · -- a lost pair would leave fewer stored pairs than answered ones
      have hlen := length_answeredPairs_mono ans hle
      rw [answeredPairs_succ_nomore hans, ← hperm.length_eq, ← hstored.length_eq] at hlen
      simp only [List.length_append] at hlen
      exact absurd (List.length_eq_zero_iff.mp (by omega)) hlost
    · -- an error answer would come before the end of the pairs
      rcases Nat.lt_or_ge i n with hin | hin
      · obtain ⟨k, v, hkv⟩ := hpairs i hin
        rw [hkv] at herr
        cases herr
      · rw [show i = n by omega, hans] at herr
        cases herr

/-- When the callback's first answer reports no more pairs, or is an error, the first
`multiset_send` sends nothing and `kvlds_multiset` waits for a completion that never comes:
no SET is in flight, `done` is clear, and every world a run reaches still has `done` clear. -/
theorem multisetStart_stuck :
    ∀ ans : ℕ → PairAnswer, ans 0 = .nomore ∨ ans 0 = .error →
      (multisetStart ans).C.inflight = 0 ∧ (multisetStart ans).C.done = false ∧
        ∀ W, Reachable (· = multisetStart ans) (MultisetStep ans) W → W.C.done = false := by
  intro ans h0
  have hstart : (multisetStart ans).pending = [] ∧ (multisetStart ans).C.inflight = 0 ∧
      (multisetStart ans).C.done = false := by
    rcases h0 with h0 | h0 <;> simp [multisetStart, multisetSend, multisetSendLoop, h0]
  obtain ⟨hpend, hinf, hdone⟩ := hstart
  refine ⟨hinf, hdone, fun W hW => ?_⟩
  -- no SET is in flight, so no step leaves the start
  have hW : W = multisetStart ans := by
    induction hW with
    | init hs => exact hs
    | step _ hst ih =>
      obtain ⟨hp, -⟩ := hst
      rw [ih, hpend] at hp
      cases hp
  rw [hW]
  exact hdone

theorem multisetStart_stuck_noPairs :
    ((fun _ => PairAnswer.nomore) 0 = .nomore ∨ (fun _ => PairAnswer.nomore) 0 = .error) ∧
      ((multisetStart fun _ => .nomore).C.inflight = 0 ∧
        (multisetStart fun _ => .nomore).C.done = false ∧
        ∀ W, Reachable (· = multisetStart fun _ => .nomore) (MultisetStep fun _ => .nomore) W →
          W.C.done = false) :=
  ⟨.inl rfl, multisetStart_stuck _ (.inl rfl)⟩

end Kivaloo.Util
