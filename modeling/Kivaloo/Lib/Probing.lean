import Mathlib

/-!
# Linear probing

An open-addressing table is a ring of `n` slots, each empty or holding an element, and every
element `x` has a home slot `home x % n`.  Linear probing looks for an element from its home slot
on, one slot at a time, and stops at the first slot that is empty or holds what it looks for; it
inserts into the first empty slot it meets.  The search is right because of the invariant
`Probing`: every element sits at the end of a run of occupied slots that starts at its home
slot.

`probeLoop` is the probe loop with an explicit number of steps; the `d`-th slot it visits from
`s` is `(s + d) % n`, and it returns the first one where its stop test holds
(`probeLoop_eq_some`, `probeLoop_eq_of_first`, `probeLoop_isSome`).  Filling a slot that the probe
of `x` reaches through occupied slots keeps `Probing` (`Probing.set`); under `Probing`, a search
for an element in the table stops at its slot before any other (`Probing.firstStop`); from any
slot the probe finds an empty slot if there is one (`probe_free`).  Filling an empty slot adds
one element to the table (`reduceOption_set_of_none`, `countP_isSome_set_of_none`).
-/

namespace Kivaloo.Lib

variable {α : Type*}

/-- The contents of slot `i`: `none` for an empty slot (or one past the end). -/
def slotAt (t : List (Option α)) (i : ℕ) : Option α := t.getD i none

/-- Linear probing from slot `pos`: the first slot where `stop` holds, looking at `fuel` slots at
most and moving on from a slot `p` to `next p`. -/
def probeLoop (next : ℕ → ℕ) (stop : ℕ → Bool) : ℕ → ℕ → Option ℕ
  | 0, _ => none
  | fuel + 1, pos => if stop pos then some pos else probeLoop next stop fuel (next pos)

/-- Every element sits at the end of a run of occupied slots that starts at its home slot. -/
def Probing (home : α → ℕ) (t : List (Option α)) : Prop :=
  ∀ j x, t[j]? = some (some x) → ∃ d < t.length, (home x + d) % t.length = j ∧
    ∀ d' < d, (slotAt t ((home x + d') % t.length)).isSome

/-! ## The ring of slots -/

section Ring

variable {n : ℕ}

/-- Two steps of a probe within one turn of the ring are different slots. -/
theorem ring_ne {s d d' : ℕ} (hd : d < n) (hd' : d' < d) : (s + d') % n ≠ (s + d) % n := by
  intro h
  have hmod : d' % n = d % n := Nat.ModEq.add_left_cancel' s h
  rw [Nat.mod_eq_of_lt (by omega), Nat.mod_eq_of_lt hd] at hmod
  omega

/-- Every slot lies within one turn of the ring from any slot. -/
theorem exists_ring_eq (s : ℕ) {i : ℕ} (hi : i < n) : ∃ d < n, (s + d) % n = i := by
  have hn : 0 < n := by omega
  refine ⟨(i + (n - s % n)) % n, Nat.mod_lt _ hn, ?_⟩
  -- `s` is `s % n` plus whole turns, which the ring does not see
  have hturns : s + (i + (n - s % n)) = i + n * (s / n + 1) := by
    have hs := Nat.mod_lt s hn
    have hdiv := Nat.mod_add_div s n
    rw [Nat.mul_add, Nat.mul_one]
    generalize s % n = a at hs hdiv ⊢
    generalize n * (s / n) = b at hdiv ⊢
    omega
  rw [Nat.add_mod_mod, hturns, Nat.add_mul_mod_self_left, Nat.mod_eq_of_lt hi]

variable {stop : ℕ → Bool}

/-- The next slot of the ring. -/
theorem succ_mod_mod (s : ℕ) : (s % n + 1) % n = (s + 1) % n := by
  rw [Nat.add_mod, Nat.mod_mod, ← Nat.add_mod]

/-- What the loop returns is the first slot from `s` where `stop` holds, within `fuel` steps. -/
theorem probeLoop_eq_some :
    ∀ {fuel s q : ℕ}, probeLoop (fun p => (p + 1) % n) stop fuel (s % n) = some q →
      ∃ d < fuel, q = (s + d) % n ∧ stop q = true ∧ ∀ d' < d, stop ((s + d') % n) = false
  | 0, _, _, h => by simp [probeLoop] at h
  | fuel + 1, s, q, h => by
    rw [probeLoop] at h
    by_cases hs : stop (s % n) = true
    · rw [if_pos hs, Option.some.injEq] at h
      subst h
      exact ⟨0, by omega, by simp, hs, fun d' hd' => absurd hd' (Nat.not_lt_zero d')⟩
    · rw [if_neg hs, succ_mod_mod] at h
      obtain ⟨d, hd, rfl, hq, hbefore⟩ := probeLoop_eq_some h
      refine ⟨d + 1, by omega, by rw [Nat.add_right_comm, Nat.add_assoc], hq, ?_⟩
      -- the first slot did not stop the loop, the others are the ones after it
      intro d' hd'
      cases d' with
      | zero => simpa using hs
      | succ d' =>
        rw [← Nat.add_assoc, Nat.add_right_comm]
        exact hbefore d' (by omega)

/-- The loop returns the first slot from `s` where `stop` holds, if that is within `fuel`
steps. -/
theorem probeLoop_eq_of_first :
    ∀ {fuel s d : ℕ}, d < fuel → stop ((s + d) % n) = true →
      (∀ d' < d, stop ((s + d') % n) = false) →
        probeLoop (fun p => (p + 1) % n) stop fuel (s % n) = some ((s + d) % n)
  | 0, _, _, hd, _, _ => absurd hd (Nat.not_lt_zero _)
  | fuel + 1, s, 0, _, hstop, _ => by
    rw [probeLoop, if_pos (by simpa using hstop)]
    simp
  | fuel + 1, s, d + 1, hd, hstop, hbefore => by
    have hs : stop (s % n) = false := by simpa using hbefore 0 (Nat.succ_pos d)
    -- the probe goes on from the next slot, one step less away
    have hshift : ∀ e, s + (e + 1) = s + 1 + e := fun e => by omega
    rw [probeLoop, if_neg (by simp [hs]), succ_mod_mod, hshift d]
    rw [hshift d] at hstop
    have hdf : d < fuel := by omega
    refine probeLoop_eq_of_first hdf hstop fun d' hd' => ?_
    rw [← hshift d']
    exact hbefore (d' + 1) (by omega)

/-- The loop finds a slot as soon as one where `stop` holds is within `fuel` steps. -/
theorem probeLoop_isSome {fuel s d : ℕ} (hd : d < fuel) (hstop : stop ((s + d) % n) = true) :
    (probeLoop (fun p => (p + 1) % n) stop fuel (s % n)).isSome := by
  -- the first such slot is at most `d` steps away
  classical
  have hex : ∃ e, stop ((s + e) % n) = true := ⟨d, hstop⟩
  have hle : Nat.find hex ≤ d := Nat.find_min' hex hstop
  rw [probeLoop_eq_of_first (by omega) (Nat.find_spec hex) fun d' hd' => by
    simpa using Nat.find_min hex hd']
  rfl

end Ring

/-! ## Slots -/

theorem slotAt_of_getElem? {t : List (Option α)} {i : ℕ} {x : Option α} (h : t[i]? = some x) :
    slotAt t i = x := by
  simp [slotAt, List.getD_eq_getElem?_getD, h]

theorem slotAt_set (t : List (Option α)) (q i : ℕ) (a : Option α) :
    slotAt (t.set q a) i = if q = i ∧ q < t.length then a else slotAt t i := by
  by_cases h : q = i ∧ q < t.length
  · obtain ⟨rfl, hlt⟩ := h
    simp [slotAt, List.getD_eq_getElem?_getD, hlt]
  · rw [if_neg h]
    simp only [slotAt, List.getD_eq_getElem?_getD, List.getElem?_set]
    split_ifs with hq hlt
    · exact absurd ⟨hq, hlt⟩ h
    · subst hq
      simp [List.getElem?_eq_none (Nat.le_of_not_lt hlt)]
    · rfl

/-- Filling a slot keeps every occupied slot occupied. -/
theorem isSome_slotAt_set {t : List (Option α)} {i : ℕ} (q : ℕ) (x : α)
    (h : (slotAt t i).isSome) : (slotAt (t.set q (some x)) i).isSome := by
  rw [slotAt_set]
  split_ifs <;> simp [h]

/-- A slot with an element, as an entry of the list. -/
theorem getElem?_of_slotAt {t : List (Option α)} {i : ℕ} {x : α} (h : slotAt t i = some x) :
    t[i]? = some (some x) := by
  rw [slotAt, List.getD_eq_getElem?_getD] at h
  cases hti : t[i]? with
  | none => simp [hti] at h
  | some a => simpa [hti] using h

/-- An empty slot within the table, as an entry of the list. -/
theorem getElem?_of_slotAt_none {t : List (Option α)} {i : ℕ} (h : slotAt t i = none)
    (hi : i < t.length) : t[i]? = some none := by
  rw [List.getElem?_eq_getElem hi]
  rw [slotAt, List.getD_eq_getElem?_getD, List.getElem?_eq_getElem hi] at h
  simpa using h

/-! ## The invariant -/

section Invariant

variable {home : α → ℕ} {t : List (Option α)}

/-- An empty table. -/
theorem probing_replicate (home : α → ℕ) (n : ℕ) : Probing home (List.replicate n none) := by
  intro j x h
  simp [List.getElem?_replicate] at h

/-- Storing `x` in a slot that its probe reaches through occupied slots keeps the invariant: the
runs of the other elements only grow. -/
theorem Probing.set (hp : Probing home t) {x : α} {d : ℕ} (hd : d < t.length)
    (hbefore : ∀ d' < d, (slotAt t ((home x + d') % t.length)).isSome) :
    Probing home (t.set ((home x + d) % t.length) (some x)) := by
  intro j y hj
  rw [List.length_set]
  rw [List.getElem?_set] at hj
  split_ifs at hj with hq hlt
  · -- the new element: its own probe reaches it
    obtain rfl : x = y := by simpa using hj
    exact ⟨d, hd, hq, fun d' hd' => isSome_slotAt_set _ _ (hbefore d' hd')⟩
  · obtain ⟨e, he, hej, hocc⟩ := hp j y hj
    exact ⟨e, he, hej, fun d' hd' => isSome_slotAt_set _ _ (hocc d' hd')⟩

/-- Under the invariant, a probe from the home slot of the element `x` at slot `j`, with a stop
test that holds at `j` and at no other occupied slot, reaches `j` first. -/
theorem Probing.firstStop (hp : Probing home t) {j : ℕ} {x : α} (hj : t[j]? = some (some x))
    {stop : ℕ → Bool} (hstop : ∀ i, (slotAt t i).isSome → (stop i = true ↔ i = j)) :
    ∃ d < t.length, (home x + d) % t.length = j ∧ stop j = true ∧
      ∀ d' < d, stop ((home x + d') % t.length) = false := by
  obtain ⟨d, hd, hdj, hocc⟩ := hp j x hj
  have hjocc : (slotAt t j).isSome := by simp [slotAt_of_getElem? hj]
  refine ⟨d, hd, hdj, (hstop j hjocc).mpr rfl, fun d' hd' => ?_⟩
  -- the slots before `j` on the probe are occupied, and they are not `j`
  have hne : (home x + d') % t.length ≠ j := hdj ▸ ring_ne hd hd'
  simpa [hne] using (hstop _ (hocc d' hd')).not

/-- From any slot, the probe for an empty slot finds one if there is one; the slots before it
are occupied. -/
theorem probe_free (t : List (Option α)) (s : ℕ) {q : ℕ} (hq : t[q]? = some none) :
    ∃ d < t.length, probeLoop (fun p => (p + 1) % t.length) (fun i => (slotAt t i).isNone)
        t.length (s % t.length) = some ((s + d) % t.length) ∧
      slotAt t ((s + d) % t.length) = none ∧
      ∀ d' < d, (slotAt t ((s + d') % t.length)).isSome := by
  have hqlen : q < t.length := by
    by_contra h
    simp [List.getElem?_eq_none (Nat.le_of_not_lt h)] at hq
  obtain ⟨e, he, heq⟩ := exists_ring_eq s hqlen
  have hfree : (slotAt t ((s + e) % t.length)).isNone = true := by
    simp [heq, slotAt_of_getElem? hq]
  obtain ⟨r, hr⟩ := Option.isSome_iff_exists.mp
    (@probeLoop_isSome t.length (fun i => (slotAt t i).isNone) t.length s e he hfree)
  obtain ⟨d, hd, rfl, hnone, hbefore⟩ := probeLoop_eq_some hr
  refine ⟨d, hd, hr, by simpa using hnone, fun d' hd' => ?_⟩
  simpa using hbefore d' hd'

/-! ## The elements -/

/-- The table has an empty slot as long as fewer slots are occupied than there are. -/
theorem exists_none_of_countP_lt (h : t.countP (·.isSome) < t.length) :
    ∃ q : ℕ, t[q]? = some none := by
  have hne : t.countP (·.isSome) ≠ t.length := by omega
  rw [Ne, List.countP_eq_length] at hne
  push Not at hne
  obtain ⟨a, ha, hnone⟩ := hne
  obtain ⟨q, hq⟩ : ∃ q : ℕ, t[q]? = some a := List.mem_iff_getElem?.mp ha
  exact ⟨q, by simpa [Option.not_isSome_iff_eq_none.mp hnone] using hq⟩

/-- The occupied slots are the elements. -/
theorem countP_isSome_eq (t : List (Option α)) : t.countP (·.isSome) = t.reduceOption.length := by
  induction t with
  | nil => rfl
  | cons a t ih =>
    cases a with
    | none => simp [ih]
    | some x => simp [ih]

/-- Filling an empty slot adds one element. -/
theorem reduceOption_set_of_none :
    ∀ {t : List (Option α)} {q : ℕ}, t[q]? = some none → ∀ x : α,
      (t.set q (some x)).reduceOption.Perm (x :: t.reduceOption)
  | [], _, h, _ => by simp at h
  | a :: t, 0, h, x => by
    obtain rfl : a = none := by simpa using h
    simp
  | a :: t, q + 1, h, x => by
    have ih := reduceOption_set_of_none (by simpa using h) x
    cases a with
    | none => simpa using ih
    | some y =>
      simp only [List.set_cons_succ, List.reduceOption_cons_of_some]
      exact (ih.cons y).trans (List.Perm.swap x y _)

/-- With no element twice, an element is in one slot only. -/
theorem eq_of_reduceOption_nodup :
    ∀ {t : List (Option α)}, t.reduceOption.Nodup → ∀ {i j : ℕ} {x : α},
      t[i]? = some (some x) → t[j]? = some (some x) → i = j
  | [], _, _, _, _, hi, _ => by simp at hi
  | a :: t, hnd, i, j, x, hi, hj => by
    -- the elements of the tail are no duplicates either, and none of them is the head's
    have htail : t.reduceOption.Nodup := by
      cases a with
      | none => simpa using hnd
      | some y => exact (List.nodup_cons.mp (by simpa using hnd)).2
    have hhead : ∀ {k : ℕ}, a = some x → t[k]? = some (some x) → False := fun {k} ha hk => by
      subst ha
      have hmem : x ∈ t.reduceOption := List.reduceOption_mem_iff.mpr (List.mem_of_getElem? hk)
      exact (List.nodup_cons.mp (by simpa using hnd)).1 hmem
    cases i with
    | zero =>
      cases j with
      | zero => rfl
      | succ j => exact (hhead (by simpa using hi) (by simpa using hj)).elim
    | succ i =>
      cases j with
      | zero => exact (hhead (by simpa using hj) (by simpa using hi)).elim
      | succ j => exact congrArg (· + 1) (eq_of_reduceOption_nodup htail (by simpa using hi)
          (by simpa using hj))

/-- Reading the slots in order gives the elements. -/
theorem filterMap_slotAt_range (t : List (Option α)) :
    (List.range t.length).filterMap (slotAt t) = t.reduceOption := by
  induction t with
  | nil => rfl
  | cons a t ih =>
    rw [List.length_cons, List.range_succ_eq_map, List.filterMap_cons, List.filterMap_map]
    have hshift : (slotAt (a :: t) ∘ Nat.succ) = slotAt t := by
      funext i
      simp [slotAt]
    rw [hshift, ih]
    cases a <;> simp [slotAt]

/-- Writing into a slot what it holds changes nothing. -/
theorem set_of_getElem?_eq {β : Type*} {l : List β} {i : ℕ} {a : β} (h : l[i]? = some a) :
    l.set i a = l := by
  have hi : i < l.length := by
    by_contra hi
    simp [List.getElem?_eq_none (Nat.le_of_not_lt hi)] at h
  rw [List.getElem?_eq_getElem hi, Option.some.injEq] at h
  rw [← h, List.set_getElem_self]

/-- Filling an empty slot occupies one slot more. -/
theorem countP_isSome_set_of_none {q : ℕ} (h : t[q]? = some none) (x : α) :
    (t.set q (some x)).countP (·.isSome) = t.countP (·.isSome) + 1 := by
  rw [countP_isSome_eq, countP_isSome_eq, (reduceOption_set_of_none h x).length_eq,
    List.length_cons]

/-- Replacing an element keeps the number of occupied slots. -/
theorem countP_isSome_set_of_some {q : ℕ} {y : α} (h : t[q]? = some (some y)) (x : α) :
    (t.set q (some x)).countP (·.isSome) = t.countP (·.isSome) := by
  have hq : q < t.length := (List.getElem?_eq_some_iff.mp h).1
  have hpos : 0 < t.countP (·.isSome) :=
    List.countP_pos_iff.mpr ⟨some y, List.mem_of_getElem? h, rfl⟩
  have hget : t[q] = some y := (List.getElem?_eq_some_iff.mp h).2
  rw [List.countP_set hq, hget]
  simp only [Option.isSome_some, if_true]
  omega

end Invariant

end Kivaloo.Lib
