import Mathlib

/-!
# Sorted readings of search trees

Reading a search tree from left to right gives its stored entries and, between the subtrees
of each inner node, the separators that route lookups.  The tree is ordered exactly when its
reading is sorted: stored keys strictly increase, a separator lies strictly above everything
read before it and at or below every stored key read after it, and separators strictly
increase.

Rebalancing a tree rewrites pieces of its reading: it moves separators between levels, drops
the separators between merged leaves, and inserts a copy of a stored key as the separator in
front of a new leaf.  A `Rewrite` is a change of one piece that keeps the entries and keeps
the whole reading sorted, whatever is read before and after the piece.  Rewrites compose and
can be made side by side, so a rebalancing pass is shown to keep a tree ordered by one
rewrite per node it changes.
-/

namespace Kivaloo.Lib

/-- An item of the reading of a search tree: a stored entry, or a separator key. -/
inductive Tok (α β : Type*) where
  | key (a : α) (b : β)
  | sep (a : α)

namespace Tok

variable {α β : Type*}

/-- The stored entry an item carries, if any. -/
def entry : Tok α β → Option (α × β)
  | key a b => some (a, b)
  | sep _ => none

/-- Whether an item is a stored entry. -/
def isKey : Tok α β → Bool
  | key _ _ => true
  | sep _ => false

@[simp] theorem entry_key (a : α) (b : β) : (key a b).entry = some (a, b) := rfl
@[simp] theorem entry_sep (a : α) : (sep a : Tok α β).entry = none := rfl
@[simp] theorem isKey_key (a : α) (b : β) : (key a b).isKey = true := rfl
@[simp] theorem isKey_sep (a : α) : (sep a : Tok α β).isKey = false := rfl

/-- A separator stores nothing, so dropping every separator keeps the entries. -/
theorem filterMap_entry_filter_isKey (l : List (Tok α β)) :
    (l.filter isKey).filterMap entry = l.filterMap entry := by
  induction l with
  | nil => rfl
  | cons t l ih => cases t <;> simp [List.filter_cons, List.filterMap_cons, ih]

variable [LinearOrder α]

/-- How an item read earlier relates to an item read later in a sorted reading. -/
def Before : Tok α β → Tok α β → Prop
  | key a _, key b _ => a < b
  | key a _, sep s => a < s
  | sep s, key b _ => s ≤ b
  | sep s, sep t => s < t

instance : (s t : Tok α β) → Decidable (Before s t)
  | key a _, key b _ => inferInstanceAs (Decidable (a < b))
  | key a _, sep s => inferInstanceAs (Decidable (a < s))
  | sep s, key b _ => inferInstanceAs (Decidable (s ≤ b))
  | sep s, sep t => inferInstanceAs (Decidable (s < t))

@[simp] theorem before_key_key {a b : α} {x y : β} : Before (key a x) (key b y) ↔ a < b :=
  Iff.rfl
@[simp] theorem before_key_sep {a s : α} {x : β} : Before (key a x) (sep s) ↔ a < s := Iff.rfl
@[simp] theorem before_sep_key {s b : α} {y : β} : Before (sep s) (key b y) ↔ s ≤ b := Iff.rfl
@[simp] theorem before_sep_sep {s t : α} : Before (sep s : Tok α β) (sep t) ↔ s < t := Iff.rfl

/-- What may follow a stored key `b` may follow a separator `b`. -/
theorem Before.sep_of_key {b : α} {x : β} {t : Tok α β} (h : Before (key b x) t) :
    Before (sep b) t := by
  cases t with
  | key c _ => exact le_of_lt h
  | sep u => exact h

/-- What comes before a stored key `c` that is below `b` comes before a separator `b`. -/
theorem Before.sep_of_lt {c b : α} {y : β} {t : Tok α β} (h : Before t (key c y)) (hcb : c < b) :
    Before t (sep b) := by
  cases t with
  | key a _ => exact lt_trans h hcb
  | sep s => exact lt_of_le_of_lt h hcb

end Tok

open Tok

variable {α β : Type*} [LinearOrder α]

/-- `l'` may replace `l` in a reading: it has the same entries, and a sorted reading stays
sorted when `l'` is put in the place of `l`, whatever surrounds it. -/
structure Rewrite (l l' : List (Tok α β)) : Prop where
  sorted : ∀ A B, (A ++ l ++ B).Pairwise Before → (A ++ l' ++ B).Pairwise Before
  entries : l'.filterMap entry = l.filterMap entry

namespace Rewrite

variable {l l' l'' l₁ l₁' l₂ l₂' : List (Tok α β)}

@[refl] theorem refl (l : List (Tok α β)) : Rewrite l l := ⟨fun _ _ h => h, rfl⟩

theorem of_eq (h : l = l') : Rewrite l l' := h ▸ refl l

theorem trans (h₁ : Rewrite l l') (h₂ : Rewrite l' l'') : Rewrite l l'' :=
  ⟨fun A B h => h₂.sorted A B (h₁.sorted A B h), h₂.entries.trans h₁.entries⟩

/-- Rewrites of adjacent pieces make a rewrite of the two together. -/
theorem append (h₁ : Rewrite l₁ l₁') (h₂ : Rewrite l₂ l₂') : Rewrite (l₁ ++ l₂) (l₁' ++ l₂') := by
  refine ⟨fun A B h => ?_, by simp [List.filterMap_append, h₁.entries, h₂.entries]⟩
  -- first rewrite `l₁` with `l₂ ++ B` after it, then `l₂` with `A ++ l₁'` before it
  have h' : (A ++ l₁' ++ (l₂ ++ B)).Pairwise Before :=
    h₁.sorted A (l₂ ++ B) (by simpa only [List.append_assoc] using h)
  simpa only [List.append_assoc] using
    h₂.sorted (A ++ l₁') B (by simpa only [List.append_assoc] using h')

theorem cons_left (t : Tok α β) (h : Rewrite l l') : Rewrite (t :: l) (t :: l') :=
  (refl [t]).append h

/-- A rewrite keeps a sorted reading sorted. -/
theorem pairwise (h : Rewrite l l') (hl : l.Pairwise Before) : l'.Pairwise Before := by
  simpa using h.sorted [] [] (by simpa using hl)

end Rewrite

/-- Dropping the separators of a piece, as when leaves are merged. -/
theorem rewrite_filter_isKey (l : List (Tok α β)) : Rewrite l (l.filter isKey) := by
  refine ⟨fun A B h => h.sublist ?_, filterMap_entry_filter_isKey l⟩
  exact ((List.filter_sublist).append_left A).append_right B

/-- Inserting a copy of a stored key `b` as a separator in front of it, when stored keys are
read before it in the same piece, as when a leaf is split in front of `b`. -/
theorem rewrite_insert_sep {l₁ l₂ : List (α × β)} {b : α × β} (h₁ : l₁ ≠ []) :
    Rewrite ((l₁ ++ b :: l₂).map fun p => key p.1 p.2)
      (l₁.map (fun p => key p.1 p.2) ++ sep b.1 :: (b :: l₂).map fun p => key p.1 p.2) := by
  refine ⟨fun A B h => ?_, by simp [List.filterMap_append, List.filterMap_cons]⟩
  obtain ⟨c, l₁', rfl⟩ := List.exists_cons_of_ne_nil h₁
  set K₁ := (c :: l₁').map fun p => (key p.1 p.2 : Tok α β)
  set K₂ := (b :: l₂).map fun p => (key p.1 p.2 : Tok α β)
  have hsplit : ∀ l : List (Tok α β), A ++ (K₁ ++ l) ++ B = (A ++ K₁) ++ (l ++ B) := by simp
  rw [List.map_append, hsplit, List.pairwise_append] at h
  rw [hsplit, List.cons_append, List.pairwise_append, List.pairwise_cons]
  obtain ⟨hAK, hKB, hcross⟩ := h
  have hb : key b.1 b.2 ∈ K₂ ++ B := by simp [K₂]
  -- the separator may follow everything read before `b`: a stored key read before `b` lies
  -- below `b`, and a separator read before the piece lies at or below its first key `c`
  have hbefore : ∀ t ∈ A ++ K₁, Before t (sep b.1) := by
    have hcb : c.1 < b.1 := by simpa using hcross (key c.1 c.2) (by simp [K₁]) _ hb
    intro t ht
    rcases List.mem_append.mp ht with ht | ht
    · exact ((List.pairwise_append.mp hAK).2.2 t ht (key c.1 c.2) (by simp [K₁])).sep_of_lt hcb
    · obtain ⟨p, -, rfl⟩ := List.mem_map.mp ht
      simpa using hcross _ (List.mem_append_right A ht) _ hb
  -- and everything read after it may follow it, as it may follow the stored key `b`
  have hafter : ∀ t ∈ K₂ ++ B, Before (sep b.1) t := by
    have hK : K₂ ++ B = key b.1 b.2 :: (l₂.map (fun p => key p.1 p.2) ++ B) := rfl
    intro t ht
    rw [hK] at ht hKB
    rcases List.mem_cons.mp ht with rfl | ht
    · simp
    · exact (List.pairwise_cons.mp hKB).1 t ht |>.sep_of_key
  refine ⟨hAK, ⟨hafter, hKB⟩, fun t ht u hu => ?_⟩
  rcases List.mem_cons.mp hu with rfl | hu
  · exact hbefore t ht
  · exact hcross t ht u hu

end Kivaloo.Lib
