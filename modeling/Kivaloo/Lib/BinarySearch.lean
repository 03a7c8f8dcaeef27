import Mathlib

/-!
# Three-way binary search

The lookup loop of a B+Tree node: keep a window `[lo, hi)` of a sorted array, compare the probe
with the middle element, move `hi` down to the middle when the probe is smaller, move `lo` past
the middle when it is larger, and stop at once when they compare equal.  The loop either hits an
element comparing equal to the probe or ends with an empty window.

The comparison is given by `c x`, the sign of the probe compared with `x`.  The array is sorted
around the probe when an element at or below the probe is preceded only by elements strictly
below it.  Then the elements strictly below the probe form a prefix, and the loop reports the
end of that prefix: as a hit when the next element compares equal, as a miss otherwise
(`bsearch_spec`).
-/

namespace Kivaloo.Lib

/-- How the search loop ends: at an element that compares equal, or with an empty window
starting at the given position. -/
inductive Probe where
  | hit (mid : ℕ)
  | miss (lo : ℕ)
deriving DecidableEq, Repr

variable {α : Type*}

/-- The loop on the window `[lo, hi)`, for at most `fuel` rounds.  The default `d` stands for
reads outside the array, which the loop does not make while `hi` is at most the length. -/
def bsearchLoop (c : α → ℤ) (xs : List α) (d : α) : ℕ → ℕ → ℕ → Probe
  | 0, lo, _ => .miss lo
  | fuel + 1, lo, hi =>
    if lo = hi then .miss lo
    else
      let mid := lo + (hi - lo) / 2
      let rc := c (xs.getD mid d)
      if rc < 0 then bsearchLoop c xs d fuel lo mid
      else if 0 < rc then bsearchLoop c xs d fuel (mid + 1) hi
      else .hit mid

/-- The search over the whole array.  Each round shrinks the window, so as many rounds as
there are elements suffice. -/
def bsearch (c : α → ℤ) (xs : List α) (d : α) : Probe :=
  bsearchLoop c xs d xs.length 0 xs.length

/-- The array is sorted around the probe: an element at or below the probe is preceded only by
elements strictly below it. -/
def SortedAround (c : α → ℤ) (xs : List α) : Prop :=
  xs.Pairwise fun x y => 0 ≤ c y → 0 < c x

/-- Elements before position `lo` are below the probe, elements from `hi` on above it. -/
def Window (c : α → ℤ) (xs : List α) (lo hi : ℕ) : Prop :=
  lo ≤ hi ∧ hi ≤ xs.length ∧ (∀ i (h : i < xs.length), i < lo → 0 < c xs[i]) ∧
    ∀ i (h : i < xs.length), hi ≤ i → c xs[i] < 0

/-- What a result says about the array. -/
def Probe.Spec (c : α → ℤ) (xs : List α) : Probe → Prop
  | .hit m => ∃ h : m < xs.length, c xs[m] = 0 ∧ (∀ i (h : i < xs.length), i < m → 0 < c xs[i]) ∧
      ∀ i (h : i < xs.length), m < i → c xs[i] < 0
  | .miss m => Window c xs m m

/-- The number of elements at or below the probe: one past a hit, the end of the window at a
miss.  This is what `btree_find_child` returns. -/
def Probe.upper : Probe → ℕ
  | .hit m => m + 1
  | .miss m => m

@[simp] theorem upper_hit (m : ℕ) : (Probe.hit m).upper = m + 1 := rfl
@[simp] theorem upper_miss (m : ℕ) : (Probe.miss m).upper = m := rfl

variable {c : α → ℤ} {xs : List α} {d : α}

theorem SortedAround.pos_of_lt (hs : SortedAround c xs) {i j : ℕ} (hi : i < xs.length)
    (hj : j < xs.length) (hij : i < j) (hc : 0 ≤ c xs[j]) : 0 < c xs[i] :=
  List.pairwise_iff_getElem.mp hs i j hi hj hij hc

/-- Comparing above the probe at `mid` moves the upper end of the window down to `mid`. -/
theorem Window.of_neg (hs : SortedAround c xs) {lo hi : ℕ} (hw : Window c xs lo hi) {mid : ℕ}
    (hlo : lo ≤ mid) (hhi : mid < hi) (hc : c (xs.getD mid d) < 0) : Window c xs lo mid := by
  obtain ⟨-, hlen, hbelow, habove⟩ := hw
  have hmid : mid < xs.length := by omega
  rw [List.getD_eq_getElem _ _ hmid] at hc
  refine ⟨hlo, by omega, hbelow, fun i hi hmi => ?_⟩
  rcases Nat.lt_or_eq_of_le hmi with hlt | rfl
  · by_contra hge
    have := hs.pos_of_lt hmid hi hlt (by omega)
    omega
  · exact hc

/-- Comparing below the probe at `mid` moves the lower end of the window past `mid`. -/
theorem Window.of_pos (hs : SortedAround c xs) {lo hi : ℕ} (hw : Window c xs lo hi) {mid : ℕ}
    (hlo : lo ≤ mid) (hhi : mid < hi) (hc : 0 < c (xs.getD mid d)) :
    Window c xs (mid + 1) hi := by
  obtain ⟨-, hlen, hbelow, habove⟩ := hw
  have hmid : mid < xs.length := by omega
  rw [List.getD_eq_getElem _ _ hmid] at hc
  refine ⟨by omega, hlen, fun i hi him => ?_, habove⟩
  rcases Nat.lt_or_eq_of_le (Nat.le_of_lt_succ him) with hlt | rfl
  · exact hs.pos_of_lt hi hmid hlt hc.le
  · exact hc

/-- Comparing equal at `mid` is a hit at `mid`. -/
theorem Window.hit (hs : SortedAround c xs) {lo hi : ℕ} (hw : Window c xs lo hi) {mid : ℕ}
    (hhi : mid < hi) (hc : c (xs.getD mid d) = 0) : (Probe.hit mid).Spec c xs := by
  have hmid : mid < xs.length := by have := hw.2.1; omega
  rw [List.getD_eq_getElem _ _ hmid] at hc
  refine ⟨hmid, hc, fun i hi him => hs.pos_of_lt hi hmid him hc.ge, fun i hi hmi => ?_⟩
  by_contra hge
  have := hs.pos_of_lt hmid hi hmi (by omega)
  omega

/-- The loop keeps the window and ends with a result that meets its spec, given as many rounds
as the window is wide. -/
theorem bsearchLoop_spec (hs : SortedAround c xs) (d : α) (fuel lo hi : ℕ)
    (hw : Window c xs lo hi) (hfuel : hi - lo ≤ fuel) :
    (bsearchLoop c xs d fuel lo hi).Spec c xs := by
  induction fuel generalizing lo hi with
  | zero =>
    -- no rounds left: the window is already empty
    have : lo = hi := by have := hw.1; omega
    subst this
    exact hw
  | succ fuel ih =>
    by_cases heq : lo = hi
    · subst heq
      rw [bsearchLoop, if_pos rfl]
      exact hw
    have hlt : lo < hi := lt_of_le_of_ne hw.1 heq
    rw [bsearchLoop, if_neg heq]
    dsimp only
    split_ifs with hneg hpos
    · exact ih _ _ (hw.of_neg hs (by omega) (by omega) hneg) (by omega)
    · exact ih _ _ (hw.of_pos hs (by omega) (by omega) hpos) (by omega)
    · exact hw.hit (d := d) hs (by omega) (by omega)

theorem bsearch_spec (hs : SortedAround c xs) (d : α) : (bsearch c xs d).Spec c xs :=
  bsearchLoop_spec hs d _ _ _ ⟨Nat.zero_le _, le_rfl, by simp, fun i hi h => by omega⟩ (by omega)

/-- The elements before `upper` are at or below the probe, the others above it. -/
theorem Probe.Spec.upper {p : Probe} (h : p.Spec c xs) :
    p.upper ≤ xs.length ∧ (∀ i (hi : i < xs.length), i < p.upper → 0 ≤ c xs[i]) ∧
      ∀ i (hi : i < xs.length), p.upper ≤ i → c xs[i] < 0 := by
  cases p with
  | hit m =>
    obtain ⟨hm, hc, hbelow, habove⟩ := h
    refine ⟨hm, fun i hi him => ?_, fun i hi hmi => habove i hi (by simpa using hmi)⟩
    rcases Nat.lt_or_eq_of_le (Nat.le_of_lt_succ him) with hlt | rfl
    · exact (hbelow i hi hlt).le
    · exact hc.ge
  | miss m =>
    obtain ⟨-, hlen, hbelow, habove⟩ := h
    exact ⟨hlen, fun i hi him => (hbelow i hi him).le, habove⟩

end Kivaloo.Lib
