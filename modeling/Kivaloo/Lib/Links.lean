import Mathlib

/-!
# Doubly linked lists kept in their nodes

An intrusive doubly linked list keeps its first and last node, and in each node a pointer to the
node after it and one to the node before it.  `Links.Holds K L` says that the links `K` hold the
list `L`: each node once, in order, each pointing at its neighbours in `L`, and the two ends
pointing nowhere.

The operations on such a list are described by what they write: `Holds.pushBack` appends a node
at the tail, `Holds.remove` unlinks a node anywhere in the list.  Each takes the new links as
hypotheses about their values at the nodes of the list, so that a model that keeps the links in
larger records only has to show what its writes do there.
-/

namespace Kivaloo.Lib

/-- The links of a doubly linked list: its first and last node, and each node's `next` and
`prev` pointer (`none` for NULL). -/
structure Links (α : Type*) where
  head : Option α
  tail : Option α
  next : α → Option α
  prev : α → Option α

namespace Links

variable {α : Type*} {K K' : Links α} {L L₁ L₂ : List α} {x : α}

/-- `a` and `b` point at each other, `b` after `a`. -/
def Adjacent (K : Links α) (a b : α) : Prop := K.next a = some b ∧ K.prev b = some a

/-- The links hold the list `L`: each node once, the ends of the list at the ends of the links,
adjacent nodes pointing at each other, and nothing after the last node or before the first. -/
structure Holds (K : Links α) (L : List α) : Prop where
  nodup : L.Nodup
  head : K.head = L.head?
  tail : K.tail = L.getLast?
  chain : L.IsChain K.Adjacent
  next_last : ∀ a ∈ L.getLast?, K.next a = none
  prev_head : ∀ a ∈ L.head?, K.prev a = none

theorem holds_nil (hhead : K.head = none) (htail : K.tail = none) : K.Holds [] :=
  ⟨List.nodup_nil, hhead, htail, .nil, by simp, by simp⟩

/-- The links hold a list through its ends and the pointers of its nodes only: writes elsewhere
keep it. -/
theorem Holds.congr (h : K.Holds L) (hhead : K'.head = K.head) (htail : K'.tail = K.tail)
    (hnext : ∀ a ∈ L, K'.next a = K.next a) (hprev : ∀ a ∈ L, K'.prev a = K.prev a) :
    K'.Holds L := by
  refine ⟨h.nodup, hhead.trans h.head, htail.trans h.tail, ?_, fun a ha => ?_, fun a ha => ?_⟩
  · refine h.chain.imp_of_mem_imp fun a b ha hb hab => ?_
    exact ⟨(hnext a ha).trans hab.1, (hprev b hb).trans hab.2⟩
  · rw [hnext a (List.mem_of_mem_getLast? ha)]
    exact h.next_last a ha
  · rw [hprev a (List.mem_of_mem_head? ha)]
    exact h.prev_head a ha

/-- A node's pointers are its neighbours in the list. -/
theorem Holds.split (h : K.Holds (L₁ ++ x :: L₂)) :
    K.prev x = L₁.getLast? ∧ K.next x = L₂.head? := by
  obtain ⟨-, hx, hlink⟩ := List.isChain_append.mp h.chain
  constructor
  · cases hp : L₁.getLast? with
    | none =>
      rw [List.getLast?_eq_none_iff] at hp
      subst hp
      exact h.prev_head x rfl
    | some a => exact (hlink a hp x rfl).2
  · cases hn : L₂.head? with
    | none =>
      rw [List.head?_eq_none_iff] at hn
      subst hn
      exact h.next_last x (by simp)
    | some b => exact (List.isChain_cons.mp hx).1 b hn |>.1

/-! ## Appending at the tail -/

variable [DecidableEq α]

/-- Appending a node at the tail: its `prev` is the old tail, its `next` is nothing, the old
tail's `next` is the node, and the head is the node if the list was empty. -/
theorem Holds.pushBack (h : K.Holds L) (hx : x ∉ L)
    (hhead : K'.head = K.head.or (some x)) (htail : K'.tail = some x)
    (hnext : ∀ a ∈ L, K'.next a = if K.tail = some a then some x else K.next a)
    (hprev : ∀ a ∈ L, K'.prev a = K.prev a) (hnextx : K'.next x = none)
    (hprevx : K'.prev x = K.tail) :
    K'.Holds (L ++ [x]) := by
  -- the last node of `L` has no successor in `L`, so only the new pair changes a `next`
  have hkeep : ∀ a b, a ∈ L → b ∈ L → K.Adjacent a b → K'.Adjacent a b := by
    intro a b ha hb hab
    have hna : K.tail ≠ some a := by
      intro ht
      rw [h.tail] at ht
      have := h.next_last a ht
      rw [hab.1] at this
      cases this
    exact ⟨by rw [hnext a ha, if_neg hna, hab.1], by rw [hprev b hb, hab.2]⟩
  refine ⟨?_, by simp [hhead, h.head], by simp [htail], ?_, ?_, ?_⟩
  · simpa [List.nodup_append] using ⟨h.nodup, fun a ha hax => hx (hax ▸ ha)⟩
  · refine List.isChain_append.mpr ⟨h.chain.imp_of_mem_imp hkeep, .singleton x, ?_⟩
    intro a ha b hb
    obtain rfl : b = x := by simpa using hb.symm
    rw [← h.tail] at ha
    exact ⟨by rw [hnext a (List.mem_of_mem_getLast? (h.tail ▸ ha)), if_pos (Option.mem_def.mp ha)],
      by rw [hprevx, Option.mem_def.mp ha]⟩
  · intro a ha
    obtain rfl : a = x := by simpa using ha.symm
    exact hnextx
  · intro a ha
    cases L with
    | nil =>
      obtain rfl : a = x := by simpa using ha.symm
      rw [hprevx, h.tail, List.getLast?_nil]
    | cons b L =>
      obtain rfl : a = b := by simpa using ha.symm
      rw [hprev a List.mem_cons_self]
      exact h.prev_head a rfl

/-! ## Unlinking a node -/

/-- Unlinking a node: the node before it and the node after it now point at each other, and an
end of the list that was the node moves to its neighbour.  This is what each of the four cases of
an unlink writes: for the only node, the head, the tail, or a node in the middle. -/
theorem Holds.remove (h : K.Holds (L₁ ++ x :: L₂))
    (hhead : K'.head = if K.head = some x then K.next x else K.head)
    (htail : K'.tail = if K.tail = some x then K.prev x else K.tail)
    (hnext : ∀ a ∈ L₁ ++ L₂, K'.next a = if K.prev x = some a then K.next x else K.next a)
    (hprev : ∀ a ∈ L₁ ++ L₂, K'.prev a = if K.next x = some a then K.prev x else K.prev a) :
    K'.Holds (L₁ ++ L₂) := by
  obtain ⟨hp, hn⟩ := h.split
  obtain ⟨hx, hnd⟩ := List.nodup_cons.mp (List.nodup_middle.mp h.nodup)
  obtain ⟨-, -, hdisj⟩ := List.nodup_append.mp hnd
  obtain ⟨-, hcx, hlink⟩ := List.isChain_append.mp h.chain
  -- the neighbours of `x` are the last node of `L₁` and the first of `L₂`
  have hpx : ∀ a ∈ L₁.getLast?, K.next a = some x := fun a ha => (hlink a ha x rfl).1
  have hnx : ∀ b ∈ L₂.head?, K.prev b = some x := fun b hb => ((List.isChain_cons.mp hcx).1 b hb).2
  -- a pair of adjacent nodes other than `x` keeps its pointers
  have hkeep : ∀ a b, a ∈ L₁ ++ L₂ → b ∈ L₁ ++ L₂ → K.Adjacent a b → K'.Adjacent a b := by
    intro a b ha hb hab
    have hpa : K.prev x ≠ some a := by
      intro hpa
      rw [hp] at hpa
      have := (hpx a hpa).symm.trans hab.1
      exact hx (Option.some.inj this ▸ hb)
    have hnb : K.next x ≠ some b := by
      intro hnb
      rw [hn] at hnb
      have := (hnx b hnb).symm.trans hab.2
      exact hx (Option.some.inj this ▸ ha)
    exact ⟨by rw [hnext a ha, if_neg hpa, hab.1], by rw [hprev b hb, if_neg hnb, hab.2]⟩
  refine ⟨hnd, ?_, ?_, ?_, ?_, ?_⟩
  · rw [hhead, h.head]
    cases L₁ with
    | nil => simp [hn]
    | cons c L₁ =>
      have hc : c ≠ x := fun e => hx (e ▸ List.mem_cons_self)
      simp [hc]
  · rw [htail, h.tail]
    cases hl : L₂.getLast? with
    | none =>
      rw [List.getLast?_eq_none_iff] at hl
      subst hl
      simp [hp]
    | some t =>
      have ht : t ≠ x := fun e => hx (e ▸ List.mem_append_right _ (List.mem_of_mem_getLast? hl))
      have hxl : (x :: L₂).getLast? = some t := by rw [List.getLast?_cons, hl, Option.getD_some]
      simp [hl, hxl, ht]
  · refine List.isChain_append.mpr ⟨?_, hcx.tail.imp_of_mem_imp fun a b ha hb =>
      hkeep a b (List.mem_append_right _ ha) (List.mem_append_right _ hb), ?_⟩
    · exact (List.isChain_append.mp h.chain).1.imp_of_mem_imp fun a b ha hb =>
        hkeep a b (List.mem_append_left _ ha) (List.mem_append_left _ hb)
    -- the new pair: the neighbours of `x`
    · intro a ha b hb
      have ha' : K.prev x = some a := hp.trans ha
      have hb' : K.next x = some b := hn.trans hb
      exact ⟨by rw [hnext a (List.mem_append_left _ (List.mem_of_mem_getLast? ha)), if_pos ha', hb'],
        by rw [hprev b (List.mem_append_right _ (List.mem_of_mem_head? hb)), if_pos hb', ha']⟩
  · intro a ha
    cases hl : L₂.getLast? with
    | none =>
      rw [List.getLast?_eq_none_iff] at hl
      subst hl
      rw [List.append_nil] at ha
      rw [hnext a (by simpa using List.mem_of_mem_getLast? ha), if_pos (hp.trans ha), hn,
        List.head?_nil]
    | some t =>
      have hat : a = t := by simpa [hl] using ha.symm
      subst hat
      have ha₂ := List.mem_of_mem_getLast? hl
      have hpa : K.prev x ≠ some a := fun e =>
        hdisj a (List.mem_of_mem_getLast? (hp ▸ e)) a ha₂ rfl
      rw [hnext a (List.mem_append_right _ ha₂), if_neg hpa]
      exact h.next_last a (by rw [List.getLast?_append, List.getLast?_cons, hl]; rfl)
  · intro a ha
    cases hl : L₁.head? with
    | none =>
      rw [List.head?_eq_none_iff] at hl
      subst hl
      rw [List.nil_append] at ha
      rw [hprev a (by simpa using List.mem_of_mem_head? ha), if_pos (hn.trans ha), hp,
        List.getLast?_nil]
    | some c =>
      have hac : a = c := by simpa [hl] using ha.symm
      subst hac
      have ha₁ := List.mem_of_mem_head? hl
      have hna : K.next x ≠ some a := fun e =>
        hdisj a ha₁ a (List.mem_of_mem_head? (hn ▸ e)) rfl
      rw [hprev a (List.mem_append_left _ ha₁), if_neg hna]
      exact h.prev_head a (by simp [hl])

end Links

end Kivaloo.Lib
