import Mathlib

/-!
# Lists related element by element

Facts about `List.Forall₂` used when a pass over the children of a node replaces each child
by a related one: a function that the relation preserves maps both lists alike, and each
element of the new list (the last one in particular) comes from an element of the old one.

Facts about lists that together hold each of a set of items once, up to order: a new item
joins them, and an item moves from the front lists to the end.  The request queues keep the
requests in such lists (pending, scheduled, answered) to count each request exactly once; the
lbs dispatcher counts the threads that owe a response, one entry replaced at a time.

Parts joined by separators (`interleave`), as the keys of a node cut into parts are the keys of
the parts with the promoted separators between them.
-/

namespace Kivaloo.Lib

variable {α β γ : Type*} {R : α → β → Prop} {l : List α} {l' : List β}

theorem forall₂_map_eq {f : α → γ} {g : β → γ} (hR : ∀ a b, R a b → g b = f a)
    (h : List.Forall₂ R l l') : l'.map g = l.map f := by
  induction h with
  | nil => rfl
  | cons hab _ ih => simp [hR _ _ hab, ih]

theorem forall₂_exists_of_mem_right (h : List.Forall₂ R l l') {b : β} (hb : b ∈ l') :
    ∃ a ∈ l, R a b := by
  induction h with
  | nil => simp at hb
  | cons hab _ ih =>
    rcases List.mem_cons.mp hb with rfl | hb
    · exact ⟨_, List.mem_cons_self, hab⟩
    · obtain ⟨a, ha, hr⟩ := ih hb
      exact ⟨a, List.mem_cons_of_mem _ ha, hr⟩

theorem forall₂_getLast? (h : List.Forall₂ R l l') {b : β} (hb : b ∈ l'.getLast?) :
    ∃ a ∈ l.getLast?, R a b := by
  induction h with
  | nil => simp at hb
  | @cons a b' l l' hab hrest ih =>
    cases hrest with
    | nil => simp_all
    | cons _ _ =>
      obtain ⟨a, ha, hr⟩ := ih (by simpa [List.getLast?_cons_cons] using hb)
      exact ⟨a, by simpa [List.getLast?_cons_cons] using ha, hr⟩

/-- Sums over related lists, when each related pair costs one more on the left if the right
element is flagged by `p`: the whole right list costs one more if any element is flagged. -/
theorem forall₂_sum_le {f : β → ℕ} {g : α → ℕ} {p : β → Bool}
    (h : List.Forall₂ (fun a b => f b + (p b).toNat ≤ g a) l l') :
    (l'.map f).sum + (l'.any p).toNat ≤ (l.map g).sum := by
  induction h with
  | nil => simp
  | @cons a b l l' hab _ ih =>
    have hor : (p b || l'.any p).toNat ≤ (p b).toNat + (l'.any p).toNat := by
      cases p b <;> cases l'.any p <;> simp
    simp only [List.map_cons, List.sum_cons, List.any_cons]
    omega

/-! ## Items held once by several lists -/

section Partition

variable {x x' y l : List α} {a : α}

/-- A new item joins the lists. -/
theorem perm_add (a : α) (h : (x ++ y).Perm l) : (x ++ [a] ++ y).Perm (l ++ [a]) := by
  rw [List.append_assoc]
  refine (List.perm_append_comm.append_left x).trans ?_
  rw [← List.append_assoc]
  exact h.append_right [a]

/-- An item moves from the front lists to the end. -/
theorem perm_move (h : (x ++ y).Perm l) (hx : x.Perm (a :: x')) : (x' ++ y ++ [a]).Perm l :=
  -- `(a :: x') ++ y` is `a :: (x' ++ y)`
  (List.perm_append_singleton a _).trans ((hx.symm.append_right y).trans h)

/-- Replacing an entry changes a count by what the old and the new entry count. -/
theorem countP_set_add {p : α → Bool} {i : ℕ} (hi : i < l.length) (a : α) :
    (l.set i a).countP p + (if p l[i] then 1 else 0) = l.countP p + (if p a then 1 else 0) := by
  have hnew := (List.set_perm_cons_eraseIdx hi a).countP_eq p
  have hold := (List.getElem_cons_eraseIdx_perm hi).countP_eq p
  rw [hnew, ← hold, List.countP_cons, List.countP_cons]
  omega

end Partition

section Interleave

/-- The parts with the separators between them: the first part, the first separator, the second
part, and so on. -/
def interleave : List (List α) → List α → List α
  | [], _ => []
  | p :: ps, ss => p ++ ss.head?.toList ++ interleave ps ss.tail

@[simp] theorem interleave_singleton (p : List α) : interleave [p] [] = p := by
  simp [interleave]

@[simp] theorem interleave_cons_cons (p : List α) (ps : List (List α)) (s : α) (ss : List α) :
    interleave (p :: ps) (s :: ss) = p ++ s :: interleave ps ss := by
  simp [interleave]

end Interleave

end Kivaloo.Lib
