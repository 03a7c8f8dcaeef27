import Kivaloo.Lib.Reading
import Kivaloo.Lib.AssocList

/-!
# Search trees as buckets between separators

Read from left to right, the leaves of a search tree are buckets of entries with one separator
between each two of them (`weave`).  The reading is sorted exactly when the separators increase
and every bucket is sorted and holds only keys that belong there, a key belonging in the bucket
numbered by the separators at or below it (`pairwise_weave_iff`, `bucketOf`).

So a lookup in all the entries is a lookup in the bucket of the key (`Bucketed.lookup_flatten`),
and a bucket may be replaced by any sorted bucket of keys that belong there (`Bucketed.set`):
this is how a batch of updates to the leaves of a tree keeps it ordered.
-/

namespace Kivaloo.Lib

open List Tok

variable {α β : Type*}

namespace Tok

/-- The key of an item: the key of an entry, or the separator. -/
def label : Tok α β → α
  | key a _ => a
  | sep s => s

@[simp] theorem label_key (a : α) (b : β) : (key a b).label = a := rfl
@[simp] theorem label_sep (s : α) : (sep s : Tok α β).label = s := rfl

variable [LinearOrder α]

/-- An item read before a separator lies below it. -/
theorem Before.label_lt {t : Tok α β} {s : α} (h : Before t (sep s)) : t.label < s := by
  cases t <;> simpa using h

/-- An item read after a separator lies at or above it. -/
theorem Before.le_label {t : Tok α β} {s : α} (h : Before (sep s) t) : s ≤ t.label := by
  cases t with
  | key b _ => simpa using h
  | sep u => exact le_of_lt h

end Tok

/-- The reading of the buckets `bs` with the separators `ss` between them. -/
def weave : List (List (α × β)) → List α → List (Tok α β)
  | [], _ => []
  | b :: bs, ss => b.map (fun p => key p.1 p.2) ++ (ss.head?.map sep).toList ++ weave bs ss.tail

@[simp] theorem weave_nil (ss : List α) : weave ([] : List (List (α × β))) ss = [] := rfl

@[simp] theorem weave_singleton (b : List (α × β)) : weave [b] [] = b.map fun p => key p.1 p.2 := by
  simp [weave]

@[simp] theorem weave_cons_cons (b : List (α × β)) (bs : List (List (α × β))) (s : α) (ss : List α) :
    weave (b :: bs) (s :: ss) = b.map (fun p => key p.1 p.2) ++ sep s :: weave bs ss := by
  simp [weave]

/-- Buckets read one after the other, the separator `s` between the last of the first ones and
the first of the others. -/
theorem weave_append {bs₁ : List (List (α × β))} {ss₁ : List α} (h : bs₁.length = ss₁.length + 1)
    (s : α) (bs₂ : List (List (α × β))) (ss₂ : List α) :
    weave (bs₁ ++ bs₂) (ss₁ ++ s :: ss₂) = weave bs₁ ss₁ ++ sep s :: weave bs₂ ss₂ := by
  induction ss₁ generalizing bs₁ with
  | nil =>
    obtain ⟨b, rfl⟩ : ∃ b, bs₁ = [b] := length_eq_one_iff.mp h
    simp [weave]
  | cons s' ss₁ ih =>
    obtain _ | ⟨b, bs₁⟩ := bs₁
    · simp at h
    · simp [ih (by simpa using h)]

/-- Every item of the reading is an entry of a bucket or a separator. -/
theorem mem_weave {bs : List (List (α × β))} {ss : List α} {t : Tok α β} (ht : t ∈ weave bs ss) :
    (∃ b ∈ bs, ∃ p ∈ b, t = key p.1 p.2) ∨ ∃ s ∈ ss, t = sep s := by
  induction bs generalizing ss with
  | nil => simp at ht
  | cons b bs ih =>
    simp only [weave, mem_append, mem_map, Option.mem_toList,
      Option.map_eq_some_iff] at ht
    rcases ht with (⟨p, hp, rfl⟩ | ⟨s, hs, rfl⟩) | ht
    · exact Or.inl ⟨b, mem_cons_self, p, hp, rfl⟩
    · exact Or.inr ⟨s, mem_of_mem_head? hs, rfl⟩
    · rcases ih ht with ⟨b', hb', hp⟩ | ⟨s, hs, rfl⟩
      · exact Or.inl ⟨b', mem_cons_of_mem _ hb', hp⟩
      · exact Or.inr ⟨s, mem_of_mem_tail hs, rfl⟩

theorem key_mem_weave {bs : List (List (α × β))} {ss : List α} {b : List (α × β)} (hb : b ∈ bs)
    {p : α × β} (hp : p ∈ b) : key p.1 p.2 ∈ weave bs ss := by
  induction bs generalizing ss with
  | nil => simp at hb
  | cons b' bs ih =>
    rcases mem_cons.mp hb with rfl | hb
    · simp only [weave, mem_append, mem_map]
      exact Or.inl (Or.inl ⟨p, hp, rfl⟩)
    · simp only [weave, mem_append]
      exact Or.inr (ih hb)

theorem sep_mem_weave {bs : List (List (α × β))} {ss : List α} (h : bs.length = ss.length + 1)
    {s : α} (hs : s ∈ ss) : (sep s : Tok α β) ∈ weave bs ss := by
  induction ss generalizing bs with
  | nil => simp at hs
  | cons s' ss ih =>
    obtain _ | ⟨b, bs⟩ := bs
    · simp at h
    rw [weave_cons_cons]
    rcases mem_cons.mp hs with rfl | hs
    · simp
    · exact mem_append_right _ (mem_cons_of_mem _ (ih (by simpa using h) hs))

variable [LinearOrder α]

/-- The bucket the key `x` belongs in: the number of separators at or below it. -/
def bucketOf (ss : List α) (x : α) : ℕ := ss.countP fun s => s ≤ x

theorem bucketOf_cons (s : α) (ss : List α) (x : α) :
    bucketOf (s :: ss) x = bucketOf ss x + if s ≤ x then 1 else 0 := by
  simp [bucketOf, countP_cons]

theorem bucketOf_eq_zero_iff {ss : List α} {x : α} : bucketOf ss x = 0 ↔ ∀ s ∈ ss, x < s := by
  simp [bucketOf, countP_eq_zero]

theorem bucketOf_le_length (ss : List α) (x : α) : bucketOf ss x ≤ ss.length :=
  countP_le_length

theorem bucketOf_append (ss₁ ss₂ : List α) (x : α) :
    bucketOf (ss₁ ++ ss₂) x = bucketOf ss₁ x + bucketOf ss₂ x :=
  countP_append

/-- Past all the separators a key belongs in the last bucket. -/
theorem bucketOf_eq_length {ss : List α} {x : α} (h : ∀ s ∈ ss, s ≤ x) :
    bucketOf ss x = ss.length :=
  countP_eq_length.mpr fun s hs => by simpa using h s hs

/-- Below the first of increasing separators a key belongs in the first bucket; otherwise it
belongs past the first separator. -/
theorem bucketOf_cons_of_sorted {s : α} {ss : List α} (hs : ∀ s' ∈ ss, s < s') (x : α) :
    (x < s ∧ bucketOf (s :: ss) x = 0) ∨ (s ≤ x ∧ bucketOf (s :: ss) x = bucketOf ss x + 1) := by
  rw [bucketOf_cons]
  by_cases hsx : s ≤ x
  · exact Or.inr ⟨hsx, by simp [hsx]⟩
  · have hx : x < s := lt_of_not_ge hsx
    refine Or.inl ⟨hx, ?_⟩
    rw [if_neg hsx, bucketOf_eq_zero_iff.mpr fun s' hs' => hx.trans (hs s' hs')]

/-- Buckets in order between separators: one bucket more than separators, the separators
increasing, every bucket increasing in its keys, and every key in the bucket it belongs in. -/
structure Bucketed (bs : List (List (α × β))) (ss : List α) : Prop where
  length : bs.length = ss.length + 1
  seps : ss.Pairwise (· < ·)
  sorted : ∀ b ∈ bs, b.Pairwise fun p q => p.1 < q.1
  fits : ∀ j (hj : j < bs.length), ∀ p ∈ bs[j], bucketOf ss p.1 = j

theorem pairwise_key_iff {b : List (α × β)} :
    (b.map fun p => (key p.1 p.2 : Tok α β)).Pairwise Before ↔ b.Pairwise fun p q => p.1 < q.1 := by
  simp [pairwise_map]

/-- The reading of buckets between separators is sorted exactly when they are in order. -/
theorem pairwise_weave_iff {bs : List (List (α × β))} {ss : List α}
    (h : bs.length = ss.length + 1) : (weave bs ss).Pairwise Before ↔ Bucketed bs ss := by
  induction ss generalizing bs with
  | nil =>
    obtain ⟨b, rfl⟩ : ∃ b, bs = [b] := length_eq_one_iff.mp h
    rw [weave_singleton, pairwise_key_iff]
    constructor
    · intro hb
      refine ⟨rfl, Pairwise.nil, by simpa using hb, fun j hj p _ => ?_⟩
      simp only [length_singleton, Nat.lt_one_iff] at hj
      simp [hj, bucketOf]
    · exact fun hB => hB.sorted b mem_cons_self
  | cons s ss ih =>
    obtain _ | ⟨b, bs⟩ := bs
    · simp at h
    have hlen : bs.length = ss.length + 1 := by simpa using h
    rw [weave_cons_cons, pairwise_append, pairwise_cons, ih hlen, pairwise_key_iff]
    constructor
    · rintro ⟨hb, ⟨hsW, hB⟩, hcross⟩
      -- the separator `s` lies above the first bucket and at or below all that follows
      have hss : ∀ s' ∈ ss, s < s' := fun s' hs' => by
        simpa using hsW _ (sep_mem_weave hlen hs')
      refine ⟨by simp [hlen], pairwise_cons.mpr ⟨hss, hB.seps⟩, ?_, fun j hj p hp => ?_⟩
      · intro b' hb'
        rcases mem_cons.mp hb' with rfl | hb'
        · exact hb
        · exact hB.sorted b' hb'
      · cases j with
        | zero =>
          have hkey : key p.1 p.2 ∈ b.map fun p => (key p.1 p.2 : Tok α β) := mem_map_of_mem hp
          refine bucketOf_eq_zero_iff.mpr fun s' hs' => ?_
          rcases mem_cons.mp hs' with rfl | hs'
          · simpa using hcross _ hkey _ mem_cons_self
          · simpa using hcross _ hkey _ (mem_cons_of_mem _ (sep_mem_weave hlen hs'))
        | succ j =>
          have hj' : j < bs.length := by simpa using hj
          rw [getElem_cons_succ] at hp
          have hsp : s ≤ p.1 := by
            simpa using hsW _ (key_mem_weave (getElem_mem hj') hp)
          rw [bucketOf_cons, if_pos hsp, hB.fits j hj' p hp]
    · intro hB
      have hss : ∀ s' ∈ ss, s < s' := (pairwise_cons.mp hB.seps).1
      -- a key past the first bucket lies at or above `s`
      have hafter : ∀ j (hj : j < bs.length), ∀ q ∈ bs[j], s ≤ q.1 := fun j hj q hq => by
        have := hB.fits (j + 1) (by simpa using hj) q (by simpa using hq)
        rcases bucketOf_cons_of_sorted hss q.1 with ⟨-, h0⟩ | ⟨hle, -⟩
        · omega
        · exact hle
      have hB' : Bucketed bs ss := by
        refine ⟨hlen, (pairwise_cons.mp hB.seps).2, fun b' hb' => hB.sorted b'
          (mem_cons_of_mem _ hb'), fun j hj q hq => ?_⟩
        have := hB.fits (j + 1) (by simpa using hj) q (by simpa using hq)
        rw [bucketOf_cons, if_pos (hafter j hj q hq)] at this
        omega
      -- the keys of the first bucket lie below every separator
      have hfirst : ∀ p ∈ b, ∀ s' ∈ s :: ss, p.1 < s' := fun p hp =>
        bucketOf_eq_zero_iff.mp (hB.fits 0 (by simp) p (by simpa using hp))
      have hW : ∀ t ∈ weave bs ss, Before (sep s) t := fun t ht => by
        rcases mem_weave ht with ⟨b', hb', q, hq, rfl⟩ | ⟨s', hs', rfl⟩
        · obtain ⟨j, hj, rfl⟩ := mem_iff_getElem.mp hb'
          simpa using hafter j hj q hq
        · simpa using hss s' hs'
      refine ⟨hB.sorted b mem_cons_self, ⟨hW, hB'⟩, fun t ht u hu => ?_⟩
      obtain ⟨p, hp, rfl⟩ := mem_map.mp ht
      rcases mem_cons.mp hu with rfl | hu
      · simpa using hfirst p hp s mem_cons_self
      rcases mem_weave hu with ⟨b', hb', q, hq, rfl⟩ | ⟨s', hs', rfl⟩
      · obtain ⟨j, hj, rfl⟩ := mem_iff_getElem.mp hb'
        simpa using (hfirst p hp s mem_cons_self).trans_le (hafter j hj q hq)
      · simpa using hfirst p hp s' (mem_cons_of_mem _ hs')

namespace Bucketed

variable {bs : List (List (α × β))} {ss : List α}

/-- A lookup in all the entries is a lookup in the bucket of the key. -/
theorem lookup_flatten [BEq α] [LawfulBEq α] (h : Bucketed bs ss) {k : α} {j : ℕ}
    (hj : j < bs.length) (hk : bucketOf ss k = j) : bs.flatten.lookup k = bs[j].lookup k := by
  refine Kivaloo.Lib.lookup_flatten hj fun i hi hne hmem => hne ?_
  obtain ⟨p, hp, rfl⟩ := mem_map.mp hmem
  exact (h.fits i hi p hp).symm.trans hk

/-- A bucket may be replaced by a sorted bucket of keys that belong there. -/
theorem set (h : Bucketed bs ss) {j : ℕ} {b : List (α × β)} (hb : b.Pairwise fun p q => p.1 < q.1)
    (hfit : ∀ p ∈ b, bucketOf ss p.1 = j) : Bucketed (bs.set j b) ss := by
  refine ⟨by simp [h.length], h.seps, fun b' hb' => ?_, fun i hi p hp => ?_⟩
  · rcases mem_or_eq_of_mem_set hb' with hb' | rfl
    · exact h.sorted b' hb'
    · exact hb
  · rw [getElem_set] at hp
    split_ifs at hp with hji
    · exact hji ▸ hfit p hp
    · exact h.fits i (by simpa using hi) p hp

end Bucketed

/-! ## Replacing one element of a list read in pieces -/

variable {γ : Type*}

theorem modify_append_of_lt (f : γ → γ) {l₁ l₂ : List γ} {i : ℕ} (h : i < l₁.length) :
    (l₁ ++ l₂).modify i f = l₁.modify i f ++ l₂ := by
  induction l₁ generalizing i with
  | nil => simp at h
  | cons a l₁ ih =>
    cases i with
    | zero => simp
    | succ i => simp [ih (by simpa using h)]

theorem modify_append_of_le (f : γ → γ) {l₁ l₂ : List γ} {i : ℕ} (h : l₁.length ≤ i) :
    (l₁ ++ l₂).modify i f = l₁ ++ l₂.modify (i - l₁.length) f := by
  induction l₁ generalizing i with
  | nil => simp
  | cons a l₁ ih =>
    obtain ⟨i, rfl⟩ : ∃ i', i = i' + 1 := ⟨i - 1, by simp at h; omega⟩
    simp [ih (by simpa using h)]

end Kivaloo.Lib
