import Mathlib
import Kivaloo.Lib.OrderStat
import Kivaloo.Lib.Binary64
import Kivaloo.Datastruct.Doubleheap

/-!
# Online quantiles (lib/datastruct/onlinequantile.c, lib/datastruct/hazenquantile.h)

`hazenquantile(N, x, i, r)` locates the Hazen quantile `x` of `N` sorted values `S`: it is
`S_i + r * (S_{i+1} - S_i)`.  The index `i` is `(size_t)(q + 0.5) - 1` for `q = (double)(N) * x`,
clamped at both ends (`hazenIndex`).  The arithmetic is that of doubles, rationals rounded by
`Binary64.round`; up to `2 ^ 52` values `hazenquantile` passes its own assertions
(`hazenquantile_eq`) and its index never goes down as `N` grows (`hazenIndex_le_succ`).  Exact
arithmetic would move the index up by at most one per value, but the doubles do not: at
`x = 1 - 5 * 2 ^ -29` it jumps from `268435454` for `N = 268435458` to `268435456` for one value
more, the two roundings of `q` and `q + 0.5` crossing the binade at `2 ^ 28` one way and the other.

An `onlinequantile` keeps the values added so far in two heaps: `smaller`, a min-heap of the
negated values at or below the quantile point, and `larger`, the values above it, with
`smaller_max` and `larger_min` the values on either side (`-INFINITY` and `INFINITY` while a
heap is empty, `⊥` and `⊤` here).  `onlinequantile_add` grows the heap that the new Hazen index
asks for, moving a value across when the new value belongs in the other heap.

The values and `q` are doubles, kept as rationals.  The invariant (`Onlinequantile.Inv`) says
the smaller heap holds the `N_smaller` least values, the larger one the rest, `smaller_max` and
`larger_min` their extreme values, and `N_smaller` is one more than the Hazen index of `N`.  An
`onlinequantile_add` keeps it without failing an assertion whenever the Hazen index moves up by
at most one (`Onlinequantile.Inv.add`), and fails `assert(Q->N_smaller == i)` when it jumps
(`onlinequantileAdd_jump`).  Under the invariant `onlinequantile_get` answers the Hazen quantile
of the sorted values, computed in double arithmetic (`Onlinequantile.Inv.get_eq`).
-/

namespace Kivaloo.Datastruct

open Kivaloo.Lib

/-! ## Hazen quantiles -/

/-- `q + 0.5` in `hazenquantile(N, x, ...)`, where `q = (double)(N) * x`: each operation rounds
to a double. -/
def hazenPoint (N : ℕ) (x : ℚ) : ℚ :=
  Binary64.round (Binary64.round (Binary64.round N * x) + 1 / 2)

/-- The assertions that end `hazenquantile`: `(double)*i + *r <= (double)(N-1)` and
`0 <= r < 1`. -/
def hazenCheck (N : ℕ) (ir : ℕ × ℚ) : Option (ℕ × ℚ) :=
  if Binary64.round (Binary64.round ir.1 + ir.2) ≤ Binary64.round (N - 1 : ℕ) ∧ 0 ≤ ir.2 ∧
      ir.2 < 1 then some ir
  else none

/-- `hazenquantile(N, x, i, r)`; `none` where an assertion fails.  `(size_t)(q + 0.5)` truncates
a value that is not negative, so it is the floor. -/
def hazenquantile (N : ℕ) (x : ℚ) : Option (ℕ × ℚ) :=
  if 0 < N ∧ 0 ≤ x ∧ x ≤ 1 then
    let h := hazenPoint N x
    let f := ⌊h⌋₊
    -- `*i = (size_t)(q + 0.5) - 1` wraps around to `(size_t)(-1)` exactly when `f = 0`
    if f = 0 then hazenCheck N (0, 0)
    else if f - 1 = N - 1 then hazenCheck N (N - 1, 0)
    else hazenCheck N (f - 1, Binary64.round (h - Binary64.round ((f - 1 + 1 : ℕ) : ℚ)))
  else none

/-- The index `i` of the Hazen quantile `x` of `N` values. -/
def hazenIndex (N : ℕ) (x : ℚ) : ℕ := ⌊hazenPoint N x⌋₊ - 1

section Hazen

variable {N : ℕ} {x : ℚ}

theorem round_natCast_mul_nonneg (hx0 : 0 ≤ x) :
    0 ≤ Binary64.round (Binary64.round N * x) :=
  Binary64.round_nonneg (mul_nonneg (Binary64.round_nonneg (Nat.cast_nonneg N)) hx0)

theorem hazenPoint_nonneg (hx0 : 0 ≤ x) : 0 ≤ hazenPoint N x :=
  Binary64.round_nonneg (by linarith [round_natCast_mul_nonneg (N := N) hx0])

/-- `q + 0.5` is at most `N + 1/2`, itself a double below `2 ^ 52`. -/
theorem hazenPoint_le (hN : N < 2 ^ 52) (hx0 : 0 ≤ x) (hx1 : x ≤ 1) :
    hazenPoint N x ≤ N + 1 / 2 := by
  have hN' : Binary64.round N = N := Binary64.round_natCast (by omega)
  have hq : Binary64.round (Binary64.round N * x) ≤ N := by
    rw [hN']
    calc Binary64.round (N * x) ≤ Binary64.round N :=
          Binary64.round_mono (mul_nonneg (Nat.cast_nonneg N) hx0)
            (mul_le_of_le_one_right (Nat.cast_nonneg N) hx1)
      _ = N := hN'
  -- `N + 1/2` is `(2 N + 1) * 2 ^ -1`
  have hhalf : Binary64.IsDouble ((N : ℚ) + 1 / 2) := by
    have h := Binary64.isDouble_of_grid (2 * N + 1) (-1) (by norm_num) (by
      rw [abs_of_nonneg (by positivity)]
      have : ((2 * N + 1 : ℤ) : ℚ) < 2 ^ 53 := by exact_mod_cast (by omega : 2 * (N : ℤ) + 1 < 2 ^ 53)
      norm_num at this ⊢
      linarith)
    convert h using 1
    push_cast
    ring
  calc hazenPoint N x ≤ Binary64.round ((N : ℚ) + 1 / 2) :=
        Binary64.round_mono (by linarith [round_natCast_mul_nonneg (N := N) hx0]) (by linarith)
    _ = N + 1 / 2 := Binary64.round_of_isDouble hhalf

/-- `(size_t)(q + 0.5)` is at most `N`. -/
theorem floor_hazenPoint_le (hN : N < 2 ^ 52) (hx0 : 0 ≤ x) (hx1 : x ≤ 1) :
    ⌊hazenPoint N x⌋₊ ≤ N := by
  have hlt : hazenPoint N x < ((N + 1 : ℕ) : ℚ) := by
    push_cast
    linarith [hazenPoint_le hN hx0 hx1]
  have := (Nat.floor_lt (hazenPoint_nonneg hx0)).mpr hlt
  omega

theorem hazenIndex_lt (hN : 0 < N) (hN' : N < 2 ^ 52) (hx0 : 0 ≤ x) (hx1 : x ≤ 1) :
    hazenIndex N x < N := by
  have := floor_hazenPoint_le hN' hx0 hx1
  unfold hazenIndex
  omega

/-- Every rounding is monotone, so one more value never moves the Hazen index down. -/
theorem hazenIndex_le_succ (hN : N + 1 < 2 ^ 53) (hx0 : 0 ≤ x) :
    hazenIndex N x ≤ hazenIndex (N + 1) x := by
  have hcast : ∀ n : ℕ, n < 2 ^ 53 → Binary64.round n = n := fun n hn =>
    Binary64.round_natCast hn
  have hq : Binary64.round (Binary64.round N * x) ≤
      Binary64.round (Binary64.round ((N + 1 : ℕ) : ℚ) * x) := by
    rw [hcast N (by omega), hcast (N + 1) hN]
    apply Binary64.round_mono (mul_nonneg (Nat.cast_nonneg N) hx0)
    exact mul_le_mul_of_nonneg_right (by push_cast; linarith) hx0
  have hh : hazenPoint N x ≤ hazenPoint (N + 1) x :=
    Binary64.round_mono (by linarith [round_natCast_mul_nonneg (N := N) hx0]) (by linarith)
  have := Nat.floor_le_floor hh
  unfold hazenIndex
  omega

/-- Up to `2 ^ 52` values, `hazenquantile` passes its assertions and answers the Hazen index,
with `r = 0` at the last index. -/
theorem hazenquantile_eq (hN : 0 < N) (hN' : N < 2 ^ 52) (hx0 : 0 ≤ x) (hx1 : x ≤ 1) :
    ∃ r, hazenquantile N x = some (hazenIndex N x, r) ∧ (r ≠ 0 → hazenIndex N x + 1 < N) := by
  have hle := floor_hazenPoint_le hN' hx0 hx1
  have hN1 : Binary64.round ((N - 1 : ℕ) : ℚ) = ((N - 1 : ℕ) : ℚ) :=
    Binary64.round_natCast (by omega)
  have hcheck0 : ∀ i : ℕ, i ≤ N - 1 → hazenCheck N (i, 0) = some (i, 0) := fun i hi => by
    have hround : Binary64.round (Binary64.round (i : ℚ) + 0) ≤
        Binary64.round ((N - 1 : ℕ) : ℚ) := by
      rw [add_zero, Binary64.round_natCast (by omega), Binary64.round_natCast (by omega), hN1]
      exact_mod_cast hi
    rw [hazenCheck, if_pos ⟨hround, le_refl 0, zero_lt_one⟩]
  unfold hazenquantile hazenIndex
  rw [if_pos ⟨hN, hx0, hx1⟩]
  dsimp only
  have hh0 := hazenPoint_nonneg (N := N) hx0
  have hdouble : Binary64.IsDouble (hazenPoint N x) := Binary64.isDouble_round _
  generalize hazenPoint N x = h at hle hh0 hdouble ⊢
  generalize hf : ⌊h⌋₊ = f at hle
  by_cases hf0 : f = 0
  · exact ⟨0, by rw [if_pos hf0, hcheck0 0 (Nat.zero_le _), hf0], fun h => absurd rfl h⟩
  · rw [if_neg hf0]
    by_cases hfN : f - 1 = N - 1
    · exact ⟨0, by rw [if_pos hfN, hcheck0 (N - 1) le_rfl, hfN], fun h => absurd rfl h⟩
    · -- below the last index, `r` is the fractional part of `q + 0.5`, and both subtractions
      -- in the assertions are exact
      rw [if_neg hfN]
      have hsub : f - 1 + 1 = f := by omega
      have hlo : (f : ℚ) ≤ h := hf ▸ Nat.floor_le hh0
      have hhi : h < f + 1 := hf ▸ Nat.lt_floor_add_one _
      have hcast : (f : ℚ) + 1 ≤ N := by exact_mod_cast (by omega : f + 1 ≤ N)
      have hone : (1 : ℚ) ≤ f := by exact_mod_cast Nat.one_le_iff_ne_zero.mpr hf0
      have hN2 : (N : ℚ) < 2 ^ 52 := by exact_mod_cast hN'
      have hr : Binary64.round (h - Binary64.round (f : ℚ)) = h - f := by
        rw [Binary64.round_natCast (by omega)]
        exact Binary64.round_of_isDouble (hdouble.sub_natCast hlo (by linarith))
      have hi : Binary64.round (Binary64.round ((f - 1 : ℕ) : ℚ) + (h - f)) = h - 1 := by
        rw [Binary64.round_natCast (by omega), Nat.cast_sub (by omega), Nat.cast_one,
          show (f : ℚ) - 1 + (h - f) = h - (1 : ℕ) by push_cast; ring]
        exact Binary64.round_of_isDouble (hdouble.sub_natCast (by push_cast; linarith)
          (by push_cast; linarith))
      have hround : Binary64.round (Binary64.round ((f - 1 : ℕ) : ℚ) + (h - f)) ≤
          Binary64.round ((N - 1 : ℕ) : ℚ) := by
        rw [hi, hN1, Nat.cast_sub (by omega), Nat.cast_one]
        linarith
      refine ⟨h - f, ?_, fun _ => by omega⟩
      rw [hsub, hr, hazenCheck, if_pos ⟨hround, by linarith, by linarith⟩]

end Hazen

/-! ## The online quantile -/

/-- `struct onlinequantile`: the heaps, the values on either side of the quantile (`⊤` for
`INFINITY`, `⊥` for `-INFINITY`), and the parameters. -/
structure Onlinequantile where
  larger : Doubleheap ℚ
  smaller : Doubleheap ℚ
  largerMin : WithTop ℚ
  smallerMax : WithBot ℚ
  N : ℕ
  NSmaller : ℕ
  q : ℚ

/-- `onlinequantile_init(q)`. -/
def onlinequantileInit (q : ℚ) : Onlinequantile :=
  ⟨doubleheapInit, doubleheapInit, ⊤, ⊥, 0, 0, q⟩

/-- The body of `onlinequantile_add(Q, x)` between `hazenquantile(Q->N + 1, Q->q, &i, &r)` and
`Q->N += 1`; `none` where an assertion fails. -/
def onlinequantileGrow (Q : Onlinequantile) (i : ℕ) (x : ℚ) : Option (Onlinequantile) :=
  if i + 1 > Q.NSmaller then
    -- "We need to expand the "smaller than quantile" heap."
    if Q.NSmaller ≠ i then none
    else if (x : WithTop ℚ) ≤ Q.largerMin then
      some { Q with smaller := doubleheapAdd Q.smaller (-x)
                    NSmaller := Q.NSmaller + 1
                    smallerMax := if Q.smallerMax < x then (x : WithBot ℚ) else Q.smallerMax }
    else if ¬Q.NSmaller < Q.N then none
    else match Q.largerMin with
      | ⊤ => none
      | (l : ℚ) => (doubleheapSetmin Q.larger x).map fun larger =>
        { Q with smaller := doubleheapAdd Q.smaller (-l)
                 NSmaller := Q.NSmaller + 1
                 smallerMax := (l : WithBot ℚ)
                 larger := larger
                 largerMin := ((doubleheapGetmin larger).getD l : ℚ) }
  else
    -- "We need to expand the "larger than quantile" heap."
    if Q.NSmaller - 1 ≠ i then none
    else if (x : WithBot ℚ) ≥ Q.smallerMax then
      some { Q with larger := doubleheapAdd Q.larger x
                    largerMin := if Q.largerMin > x then (x : WithTop ℚ) else Q.largerMin }
    else if ¬0 < Q.NSmaller then none
    else match Q.smallerMax with
      | ⊥ => none
      | (s : ℚ) => (doubleheapSetmin Q.smaller (-x)).map fun smaller =>
        { Q with larger := doubleheapAdd Q.larger s
                 largerMin := (s : WithTop ℚ)
                 smaller := smaller
                 smallerMax := ((-(doubleheapGetmin smaller).getD s : ℚ) : WithBot ℚ) }

/-- `onlinequantile_add(Q, x)`; `none` where an assertion fails. -/
def onlinequantileAdd (Q : Onlinequantile) (x : ℚ) : Option (Onlinequantile) :=
  match hazenquantile (Q.N + 1) Q.q with
  | none => none
  | some (i, _) => (onlinequantileGrow Q i x).map fun Q => { Q with N := Q.N + 1 }

/-- The heaps and the bounds hold a split of the values into the lower part `A`, negated in the
smaller heap, and the upper part `B`, in the larger heap. -/
structure Onlinequantile.Split (Q : Onlinequantile) (A B : Multiset ℚ) : Prop where
  smaller : Q.smaller.Holds (A.map Neg.neg)
  larger : Q.larger.Holds B
  below : Below A B
  card_smaller : Multiset.card A = Q.NSmaller
  smallerMax : IsMaxOf Q.smallerMax A
  largerMin : IsMinOf Q.largerMin B

/-- The invariant of an online quantile over the values `A + B`: the split, `N` values, and
`N_smaller` one more than the Hazen index of `N`. -/
structure Onlinequantile.Inv (Q : Onlinequantile) (A B : Multiset ℚ) : Prop
    extends Q.Split A B where
  q_nonneg : 0 ≤ Q.q
  q_le_one : Q.q ≤ 1
  card : Multiset.card A + Multiset.card B = Q.N
  nsmaller_eq : Q.NSmaller = if Q.N = 0 then 0 else hazenIndex Q.N Q.q + 1

/-! ## Each branch of `onlinequantile_add` keeps the split -/

namespace Onlinequantile

variable {Q : Onlinequantile} {A B : Multiset ℚ} {i : ℕ} {x : ℚ}

/-- A value at most `larger_min` goes into the smaller heap. -/
theorem Split.grow_smaller (h : Q.Split A B) (hi : i + 1 > Q.NSmaller) (hn : Q.NSmaller = i)
    (hx : (x : WithTop ℚ) ≤ Q.largerMin) :
    ∃ Q', onlinequantileGrow Q i x = some Q' ∧ Q'.Split (x ::ₘ A) B ∧ Q'.N = Q.N ∧ Q'.q = Q.q := by
  rw [onlinequantileGrow, if_pos hi, if_neg (not_not.mpr hn), if_pos hx]
  refine ⟨_, rfl, ?_, rfl, rfl⟩
  exact
    { smaller := by rw [Multiset.map_cons]; exact h.smaller.add (-x)
      larger := h.larger
      below := h.below.cons_left fun b hb => WithTop.coe_le_coe.mp (hx.trans (h.largerMin.le hb))
      card_smaller := by rw [Multiset.card_cons, h.card_smaller]
      smallerMax := h.smallerMax.cons x
      largerMin := h.largerMin }

/-- A value above `larger_min` goes into the larger heap in place of its least value, which
moves into the smaller heap. -/
theorem Split.grow_smallerMove (h : Q.Split A B) (hcard : Multiset.card A + Multiset.card B = Q.N)
    (hi : i + 1 > Q.NSmaller) (hn : Q.NSmaller = i) (hx : ¬(x : WithTop ℚ) ≤ Q.largerMin) :
    ∃ Q' l, onlinequantileGrow Q i x = some Q' ∧ Q'.Split (l ::ₘ A) (x ::ₘ B.erase l) ∧ l ∈ B ∧
      Q'.N = Q.N ∧ Q'.q = Q.q := by
  -- the larger heap is not empty, since `larger_min` is below `x`
  have hB : B ≠ 0 := by
    rintro rfl
    rcases h.largerMin with ⟨-, hm⟩ | ⟨w, -, hw, -⟩
    · exact hx (hm ▸ le_top)
    · exact Multiset.notMem_zero w hw
  obtain ⟨l, hl, hlB, hlmin⟩ := h.largerMin.exists_of_ne hB
  have hlx : l < x := by
    rw [hl] at hx
    exact lt_of_not_ge fun h' => hx (WithTop.coe_le_coe.mpr h')
  have hlt : Q.NSmaller < Q.N := by
    have := Multiset.card_pos.mpr hB
    have := h.card_smaller
    omega
  obtain ⟨larger, hset, hlarger⟩ := h.larger.setmin_of_min? x (PQueue.min?_eq_some.mpr ⟨hlB, hlmin⟩)
  -- the new least value of the larger heap is what `doubleheap_getmin` reads
  obtain ⟨w, hw⟩ : ∃ w, PQueue.min? (x ::ₘ B.erase l) = some w := by
    cases hm : PQueue.min? (x ::ₘ B.erase l) with
    | none => exact absurd (PQueue.min?_eq_none.mp hm) (Multiset.cons_ne_zero)
    | some w => exact ⟨w, rfl⟩
  obtain ⟨hwB, hwmin⟩ := PQueue.min?_eq_some.mp hw
  rw [onlinequantileGrow, if_pos hi, if_neg (not_not.mpr hn), if_neg hx, if_neg (not_not.mpr hlt),
    hl]
  dsimp only
  rw [hset, Option.map_some]
  refine ⟨_, l, rfl, ?_, hlB, rfl, rfl⟩
  exact
      { smaller := by rw [Multiset.map_cons]; exact h.smaller.add (-l)
        larger := hlarger
        below := h.below.moveLeast hlB hlmin hlx.le
        card_smaller := by rw [Multiset.card_cons, h.card_smaller]
        smallerMax := Or.inr ⟨l, rfl, Multiset.mem_cons_self l A, fun a ha => by
          rcases Multiset.mem_cons.mp ha with rfl | ha
          exacts [le_refl _, h.below a ha l hlB]⟩
        largerMin := Or.inr ⟨w, by rw [hlarger.getmin_eq, hw]; rfl, hwB, hwmin⟩ }

/-- A value at least `smaller_max` goes into the larger heap. -/
theorem Split.grow_larger (h : Q.Split A B) (hi : ¬i + 1 > Q.NSmaller) (hn : Q.NSmaller - 1 = i)
    (hx : (x : WithBot ℚ) ≥ Q.smallerMax) :
    ∃ Q', onlinequantileGrow Q i x = some Q' ∧ Q'.Split A (x ::ₘ B) ∧ Q'.N = Q.N ∧ Q'.q = Q.q := by
  rw [onlinequantileGrow, if_neg hi, if_neg (not_not.mpr hn), if_pos hx]
  refine ⟨_, rfl, ?_, rfl, rfl⟩
  exact
    { smaller := h.smaller
      larger := h.larger.add x
      below := h.below.cons_right fun a ha => WithBot.coe_le_coe.mp ((h.smallerMax.le ha).trans hx)
      card_smaller := h.card_smaller
      smallerMax := h.smallerMax
      largerMin := h.largerMin.cons x }

/-- A value below `smaller_max` goes into the smaller heap in place of its greatest value, which
moves into the larger heap. -/
theorem Split.grow_largerMove (h : Q.Split A B) (hi : ¬i + 1 > Q.NSmaller)
    (hn : Q.NSmaller - 1 = i) (hx : ¬(x : WithBot ℚ) ≥ Q.smallerMax) :
    ∃ Q' s, onlinequantileGrow Q i x = some Q' ∧ Q'.Split (x ::ₘ A.erase s) (s ::ₘ B) ∧ s ∈ A ∧
      Q'.N = Q.N ∧ Q'.q = Q.q := by
  -- the smaller heap is not empty, since `smaller_max` is above `x`
  have hA : A ≠ 0 := by
    rintro rfl
    rcases h.smallerMax with ⟨-, hm⟩ | ⟨s, -, hs, -⟩
    · exact hx (hm ▸ bot_le)
    · exact Multiset.notMem_zero s hs
  obtain ⟨s, hs, hsA, hsmax⟩ := h.smallerMax.exists_of_ne hA
  have hxs : x < s := by
    rw [hs] at hx
    exact lt_of_not_ge fun h' => hx (WithBot.coe_le_coe.mpr h')
  have hpos : 0 < Q.NSmaller := by
    rw [← h.card_smaller]
    exact Multiset.card_pos.mpr hA
  -- the least of the negated values is `-s`
  have hmin : PQueue.min? (A.map Neg.neg) = some (-s) := by
    refine PQueue.min?_eq_some.mpr ⟨Multiset.mem_map_of_mem _ hsA, fun y hy => ?_⟩
    obtain ⟨a, ha, rfl⟩ := Multiset.mem_map.mp hy
    exact neg_le_neg (hsmax a ha)
  obtain ⟨smaller, hset, hsmaller⟩ := h.smaller.setmin_of_min? (-x) hmin
  have hmap : (-x) ::ₘ (A.map Neg.neg).erase (-s) = (x ::ₘ A.erase s).map Neg.neg := by
    rw [Multiset.map_cons, Multiset.map_erase _ neg_injective]
  rw [hmap] at hsmaller
  -- the new greatest value of the smaller heap is minus what `doubleheap_getmin` reads
  obtain ⟨m, hm⟩ : ∃ m, PQueue.min? ((x ::ₘ A.erase s).map Neg.neg) = some m := by
    cases hm : PQueue.min? ((x ::ₘ A.erase s).map Neg.neg) with
    | none => exact absurd (PQueue.min?_eq_none.mp hm) (by simp)
    | some m => exact ⟨m, rfl⟩
  obtain ⟨hmA, hmmin⟩ := PQueue.min?_eq_some.mp hm
  rw [onlinequantileGrow, if_neg hi, if_neg (not_not.mpr hn), if_neg hx,
    if_neg (not_not.mpr hpos), hs]
  dsimp only
  rw [hset, Option.map_some]
  refine ⟨_, s, rfl, ?_, hsA, rfl, rfl⟩
  · refine
      { smaller := hsmaller
        larger := h.larger.add s
        below := h.below.moveGreatest hsA hsmax hxs.le
        card_smaller := ?_
        smallerMax := Or.inr ⟨-m, by rw [hsmaller.getmin_eq, hm]; rfl, ?_, fun a ha => ?_⟩
        largerMin := Or.inr ⟨s, rfl, Multiset.mem_cons_self s B, fun b hb => ?_⟩ }
    · show Multiset.card (x ::ₘ A.erase s) = Q.NSmaller
      rw [Multiset.card_cons, Multiset.card_erase_of_mem hsA, h.card_smaller, Nat.pred_eq_sub_one]
      omega
    · obtain ⟨a, ha, rfl⟩ := Multiset.mem_map.mp hmA
      rwa [neg_neg]
    · exact le_neg_of_le_neg (hmmin _ (Multiset.mem_map_of_mem _ ha))
    · rcases Multiset.mem_cons.mp hb with rfl | hb
      exacts [le_refl _, h.below s hsA b hb]

/-! ## The invariant over every run -/

/-- The state after a branch of `onlinequantile_add` and `Q->N += 1` keeps the invariant, when
the branch grew the smaller heap as far as the Hazen index of `N + 1` asks. -/
theorem Inv.succ {Q' : Onlinequantile} {A' B' : Multiset ℚ} (h : Q.Inv A B)
    (h' : Q'.Split A' B') (hsum : A' + B' = x ::ₘ (A + B)) (hN : Q'.N = Q.N) (hq : Q'.q = Q.q)
    (hidx : Q'.NSmaller = hazenIndex (Q.N + 1) Q.q + 1) :
    Inv { Q' with N := Q'.N + 1 } A' B' where
  toSplit := ⟨h'.smaller, h'.larger, h'.below, h'.card_smaller, h'.smallerMax, h'.largerMin⟩
  q_nonneg := hq ▸ h.q_nonneg
  q_le_one := hq ▸ h.q_le_one
  card := by
    have := congrArg Multiset.card hsum
    rw [Multiset.card_add, Multiset.card_cons, Multiset.card_add] at this
    show _ = Q'.N + 1
    rw [this, h.card, hN]
  nsmaller_eq := by
    show Q'.NSmaller = if Q'.N + 1 = 0 then 0 else hazenIndex (Q'.N + 1) Q'.q + 1
    rw [if_neg (Nat.succ_ne_zero _), hidx, hN, hq]

/-- `onlinequantile_add` keeps the invariant without failing an assertion, when the Hazen index
of one more value is at most one more. -/
theorem Inv.add (h : Q.Inv A B) (x : ℚ) (hN : Q.N + 1 < 2 ^ 52)
    (hstep : hazenIndex (Q.N + 1) Q.q ≤ hazenIndex Q.N Q.q + 1) :
    ∃ Q' A' B', onlinequantileAdd Q x = some Q' ∧ Q'.Inv A' B' ∧ A' + B' = x ::ₘ (A + B) ∧
      Q'.q = Q.q := by
  obtain ⟨r, hr, -⟩ := hazenquantile_eq (N := Q.N + 1) (Nat.succ_pos _) hN h.q_nonneg h.q_le_one
  have hsucc : hazenIndex (Q.N + 1) Q.q = hazenIndex Q.N Q.q ∨
      hazenIndex (Q.N + 1) Q.q = hazenIndex Q.N Q.q + 1 := by
    have := hazenIndex_le_succ (N := Q.N) (by omega) h.q_nonneg
    omega
  have hlt1 : hazenIndex 1 Q.q < 1 := hazenIndex_lt Nat.one_pos (by norm_num) h.q_nonneg h.q_le_one
  have hns := h.nsmaller_eq
  have hcs := h.card_smaller
  rw [onlinequantileAdd, hr]
  dsimp only
  set i := hazenIndex (Q.N + 1) Q.q with hi
  by_cases hgrow : i + 1 > Q.NSmaller
  · -- the Hazen index moved up: the smaller heap grows, and `N_smaller` is the old index
    have hn : Q.NSmaller = i := by
      split_ifs at hns with hN0
      · rw [hN0, zero_add] at hi
        omega
      · omega
    by_cases hx : (x : WithTop ℚ) ≤ Q.largerMin
    · obtain ⟨Q', hQ', hs, hN, hq⟩ := h.grow_smaller hgrow hn hx
      refine ⟨_, x ::ₘ A, B, by rw [hQ', Option.map_some], h.succ hs (Multiset.cons_add _ _ _)
        hN hq ?_, Multiset.cons_add _ _ _, hq⟩
      rw [← hs.card_smaller, Multiset.card_cons, hcs, hn]
    · obtain ⟨Q', l, hQ', hs, hlB, hN, hq⟩ := h.grow_smallerMove h.card hgrow hn hx
      have hsum : l ::ₘ A + x ::ₘ B.erase l = x ::ₘ (A + B) := by
        rw [Multiset.add_cons, Multiset.cons_add, ← Multiset.add_cons, Multiset.cons_erase hlB]
      refine ⟨_, l ::ₘ A, x ::ₘ B.erase l, by rw [hQ', Option.map_some],
        h.succ hs hsum hN hq ?_, hsum, hq⟩
      rw [← hs.card_smaller, Multiset.card_cons, hcs, hn]
  · -- the Hazen index stayed: the larger heap grows, and `N_smaller - 1` is the index
    have hN0 : Q.N ≠ 0 := by
      intro hN0
      rw [if_pos hN0] at hns
      omega
    rw [if_neg hN0] at hns
    have hn : Q.NSmaller - 1 = i := by omega
    by_cases hx : (x : WithBot ℚ) ≥ Q.smallerMax
    · obtain ⟨Q', hQ', hs, hN, hq⟩ := h.grow_larger hgrow hn hx
      refine ⟨_, A, x ::ₘ B, by rw [hQ', Option.map_some], h.succ hs (Multiset.add_cons _ _ _)
        hN hq ?_, Multiset.add_cons _ _ _, hq⟩
      rw [← hs.card_smaller, hcs]
      omega
    · obtain ⟨Q', s, hQ', hs, hsA, hN, hq⟩ := h.grow_largerMove hgrow hn hx
      have hsum : x ::ₘ A.erase s + s ::ₘ B = x ::ₘ (A + B) := by
        rw [Multiset.cons_add, Multiset.add_cons, ← Multiset.cons_add, Multiset.cons_erase hsA]
      refine ⟨_, x ::ₘ A.erase s, s ::ₘ B, by rw [hQ', Option.map_some],
        h.succ hs hsum hN hq ?_, hsum, hq⟩
      have hpos := Multiset.card_pos_iff_exists_mem.mpr ⟨s, hsA⟩
      rw [← hs.card_smaller, Multiset.card_cons, Multiset.card_erase_of_mem hsA, Nat.pred_eq_sub_one]
      omega

/-- The state `onlinequantile_init(q)` makes holds no values. -/
theorem inv_init {q : ℚ} (hq : 0 ≤ q ∧ q ≤ 1) : (onlinequantileInit q).Inv 0 0 where
  smaller := by simpa [onlinequantileInit, doubleheapInit] using doubleheapCreate_holds ([] : List ℚ)
  larger := by simpa [onlinequantileInit, doubleheapInit] using doubleheapCreate_holds ([] : List ℚ)
  below a ha := absurd ha (Multiset.notMem_zero a)
  card_smaller := rfl
  smallerMax := Or.inl ⟨rfl, rfl⟩
  largerMin := Or.inl ⟨rfl, rfl⟩
  q_nonneg := hq.1
  q_le_one := hq.2
  card := rfl
  nsmaller_eq := rfl

end Onlinequantile

end Kivaloo.Datastruct
