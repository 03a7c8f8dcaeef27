import Mathlib

/-!
# Lexicographic order on lists

Facts about the lexicographic order on `List α` over a linear order that a search structure
keyed by strings needs: how `≤` unfolds at a cons, and the squeeze lemma behind prefix
compression — a list lying between two lists that agree on their first `m` entries agrees
with them there as well.

We also fix the half-open ranges `[lo, hi)` with optional ends that such structures hand to
their subtrees: an absent end stands for the end of the key space.
-/

namespace List

variable {α : Type*} [LinearOrder α]

theorem cons_le_cons_iff' {a b : α} {l₁ l₂ : List α} :
    a :: l₁ ≤ b :: l₂ ↔ a < b ∨ a = b ∧ l₁ ≤ l₂ := by
  simp only [le_iff_lt_or_eq, cons_lt_cons_iff, cons.injEq]
  tauto

theorem le_nil_iff' {l : List α} : l ≤ [] ↔ l = [] := by
  simp [le_iff_lt_or_eq, not_lt_nil]

/-- A list squeezed between two lists with the same head has that head, and its tail is
squeezed between theirs. -/
theorem cons_between {a b : α} {lo k hi : List α} (h₁ : a :: lo ≤ b :: k)
    (h₂ : b :: k ≤ a :: hi) : a = b ∧ lo ≤ k ∧ k ≤ hi := by
  rw [cons_le_cons_iff'] at h₁ h₂
  rcases h₁ with h₁ | ⟨rfl, h₁⟩
  · rcases h₂ with h₂ | ⟨rfl, -⟩
    · exact absurd (h₁.trans h₂) (lt_irrefl a)
    · exact absurd h₁ (lt_irrefl _)
  · rcases h₂ with h₂ | ⟨-, h₂⟩
    · exact absurd h₂ (lt_irrefl _)
    · exact ⟨rfl, h₁, h₂⟩

/-- Lists squeezed between two lists that agree on their first `m` entries agree with them
there too. -/
theorem take_eq_of_between {lo k hi : List α} {m : ℕ} (hlo : m ≤ lo.length)
    (htake : lo.take m = hi.take m) (h₁ : lo ≤ k) (h₂ : k ≤ hi) :
    k.take m = lo.take m ∧ m ≤ k.length := by
  induction m generalizing lo k hi with
  | zero => simp
  | succ m ih =>
    obtain _ | ⟨a, lo⟩ := lo
    · simp at hlo
    obtain _ | ⟨c, hi⟩ := hi
    · simp at htake
    obtain _ | ⟨b, k⟩ := k
    · simp [le_nil_iff'] at h₁
    simp only [take_succ_cons, cons.injEq] at htake
    obtain ⟨rfl, htake⟩ := htake
    obtain ⟨rfl, hlo', hhi'⟩ := cons_between h₁ h₂
    obtain ⟨hk, hlen⟩ := ih (by simpa using hlo) htake hlo' hhi'
    simp [hk, hlen]

end List

namespace Kivaloo.Lib

variable {α : Type*} [LinearOrder α]

/-- `lo` bounds `x` from below; an absent bound is the start of the key space. -/
def AboveLo : Option α → α → Prop
  | none, _ => True
  | some l, x => l ≤ x

/-- `hi` bounds `x` strictly from above; an absent bound is the end of the key space. -/
def BelowHi : Option α → α → Prop
  | none, _ => True
  | some h, x => x < h

/-- `x` lies in the half-open range `[lo, hi)`. -/
def InRange (lo hi : Option α) (x : α) : Prop := AboveLo lo x ∧ BelowHi hi x

instance : (lo : Option α) → (x : α) → Decidable (AboveLo lo x)
  | none, _ => isTrue trivial
  | some l, x => inferInstanceAs (Decidable (l ≤ x))

instance : (hi : Option α) → (x : α) → Decidable (BelowHi hi x)
  | none, _ => isTrue trivial
  | some h, x => inferInstanceAs (Decidable (x < h))

instance (lo hi : Option α) (x : α) : Decidable (InRange lo hi x) :=
  inferInstanceAs (Decidable (_ ∧ _))

@[simp] theorem aboveLo_none (x : α) : AboveLo none x := trivial
@[simp] theorem belowHi_none (x : α) : BelowHi none x := trivial
@[simp] theorem aboveLo_some {l x : α} : AboveLo (some l) x ↔ l ≤ x := Iff.rfl
@[simp] theorem belowHi_some {h x : α} : BelowHi (some h) x ↔ x < h := Iff.rfl

theorem AboveLo.mono {lo : Option α} {x y : α} (h : AboveLo lo x) (hxy : x ≤ y) :
    AboveLo lo y := by
  cases lo with
  | none => trivial
  | some l => exact le_trans h hxy

theorem BelowHi.mono {hi : Option α} {x y : α} (h : BelowHi hi y) (hxy : x ≤ y) :
    BelowHi hi x := by
  cases hi with
  | none => trivial
  | some u => exact lt_of_le_of_lt hxy h

end Kivaloo.Lib
