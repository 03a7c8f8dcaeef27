import Kivaloo.Lib.Word
import Kivaloo.LbsDynamodb.DeleteTo

/-!
# What the lbs-dynamodb deleter keeps

The deleter's invariant (`DeletetoInv`) relative to the stored `deletedto` value `read`: the
blocks in progress are increasing and below `M`, every block below `M` has been deleted or is in
progress, at most MAXINPROGRESS are in progress, `M` is at most MAXUNRECORDED past `read`,
`read` is at most the value `poke` reports, and every DELETE it issued is below `N`.  From it,
everything below the reported value has been deleted (`DeletetoInv.completed_of_lt`).

One round of the `while` loop keeps the invariant (`DeletetoInv.issue`), hence the loop
(`issueLoop_inv`) and `poke` (`poke_deleter`); `poke` records the reported value and at most
starts a write (`poke_metadata`).
-/

namespace Kivaloo.LbsDynamodb

open Kivaloo.Lib

variable {κ : Type}

/-! ## The reported value -/

section Deletedto

variable {D : Deleteto}

/-- The reported value is at most `M`. -/
theorem deletedto_le_M (h : ∀ X ∈ D.ip, X < D.M) : D.deletedto ≤ D.M := by
  unfold Deleteto.deletedto
  cases hip : D.ip with
  | nil => exact UInt64.le_refl _
  | cons a t => exact UInt64.le_of_lt (h a (by simp [hip]))

/-- On increasing blocks in progress, the reported value is the least of them. -/
theorem deletedto_le_of_mem (hs : D.ip.Pairwise (· < ·)) {X : UInt64} (hX : X ∈ D.ip) :
    D.deletedto ≤ X := by
  unfold Deleteto.deletedto
  cases hip : D.ip with
  | nil => simp [hip] at hX
  | cons a t =>
    rw [hip] at hX hs
    rcases List.mem_cons.mp hX with rfl | hXt
    · exact UInt64.le_refl _
    · exact UInt64.le_of_lt (List.rel_of_pairwise_cons hs hXt)

/-- Removing a completed block from increasing blocks in progress, all below `M`, does not lower
the reported value. -/
theorem deletedto_le_erase (hs : D.ip.Pairwise (· < ·)) (hM : ∀ X ∈ D.ip, X < D.M)
    (X : UInt64) : D.deletedto ≤ (D.ip.erase X).headD D.M := by
  unfold Deleteto.deletedto
  cases hip : D.ip with
  | nil => exact UInt64.le_refl _
  | cons a t =>
    rw [hip] at hs hM
    by_cases hX : a = X
    · -- the first block completed: the next one, or `M`, is above it
      subst hX
      rw [List.erase_cons_head]
      cases t with
      | nil => exact UInt64.le_of_lt (hM a (by simp))
      | cons b u => exact UInt64.le_of_lt (List.rel_of_pairwise_cons hs (by simp))
    · rw [List.erase_cons_tail (by simpa using hX)]
      exact UInt64.le_refl _

end Deletedto

/-! ## The deleter's invariant -/

/-- What the deleter keeps, `read` being the stored `deletedto`, `C` the blocks whose DELETEs
completed and `I` those it issued DELETEs for. -/
structure DeletetoInv (D : Deleteto) (read : UInt64) (C I : List UInt64) : Prop where
  sorted : D.ip.Pairwise (· < ·)
  lt_M : ∀ X ∈ D.ip, X < D.M
  below : ∀ b, b < D.M → b ∈ C ∨ b ∈ D.ip
  npending : D.npending = D.ip.length
  npending_le : D.npending ≤ MAXINPROGRESS
  read_le : read ≤ D.deletedto
  M_le : D.M.toNat ≤ read.toNat + MAXUNRECORDED.toNat
  issued : ∀ X ∈ I, X < D.N
  flushed : D.flushed ≤ D.deletedto

namespace DeletetoInv

variable {D : Deleteto} {read : UInt64} {C I : List UInt64}

/-- Everything below the reported value has been deleted. -/
theorem completed_of_lt (h : DeletetoInv D read C I) {b : UInt64} (hb : b < D.deletedto) :
    b ∈ C := by
  rcases h.below b (UInt64.lt_of_lt_of_le hb (deletedto_le_M h.lt_M)) with hC | hip
  · exact hC
  · exact absurd (deletedto_le_of_mem h.sorted hip) (UInt64.not_le.mpr hb)

theorem read_le_M (h : DeletetoInv D read C I) : read ≤ D.M :=
  UInt64.le_trans h.read_le (deletedto_le_M h.lt_M)

/-- More completed DELETEs keep the invariant. -/
theorem mono (h : DeletetoInv D read C I) {C' : List UInt64} (hC : ∀ b ∈ C, b ∈ C') :
    DeletetoInv D read C' I :=
  { h with below := fun b hb => (h.below b hb).imp_left (hC b) }

/-- A larger stored value, still at most the reported one, keeps the invariant. -/
theorem mono_read (h : DeletetoInv D read C I) {read' : UInt64} (hr : read ≤ read')
    (hr' : read' ≤ D.deletedto) : DeletetoInv D read' C I :=
  { h with
    read_le := hr'
    M_le := by
      have := UInt64.le_iff_toNat_le.mp hr
      have := h.M_le
      omega }

/-- A deleter with the same blocks in progress, `M`, `N` and `npending` keeps the invariant when
its `flushed` is at most the reported value. -/
theorem congr (h : DeletetoInv D read C I) {D' : Deleteto} (hip : D'.ip = D.ip) (hM : D'.M = D.M)
    (hN : D'.N = D.N) (hnp : D'.npending = D.npending) (hfl : D'.flushed ≤ D'.deletedto) :
    DeletetoInv D' read C I := by
  have hd : D'.deletedto = D.deletedto := by simp only [Deleteto.deletedto, hip, hM]
  exact ⟨hip ▸ h.sorted, hip ▸ hM ▸ h.lt_M, hip ▸ hM ▸ h.below, hip ▸ hnp ▸ h.npending,
    hnp ▸ h.npending_le, hd ▸ h.read_le, hM ▸ h.M_le, hN ▸ h.issued, hfl⟩

/-- One round of the `while` loop keeps the invariant: `M` joins the blocks in progress and is
below `N`, and it is below `read + MAXUNRECORDED` without wrapping since `read ≤ M`. -/
theorem issue (h : DeletetoInv D read C I) (hN : D.M < D.N) (hnp : D.npending < MAXINPROGRESS)
    (hread : D.M < read + MAXUNRECORDED) :
    DeletetoInv { D with ip := D.ip ++ [D.M], npending := D.npending + 1, M := D.M + 1 } read C
      (I ++ [D.M]) := by
  have hsucc := toNat_add_one_of_lt hN
  have hlt : ∀ X, X < D.M → X < D.M + 1 := fun X hX =>
    UInt64.lt_iff_toNat_lt.mpr (by have := UInt64.lt_iff_toNat_lt.mp hX; omega)
  have hd : ({ D with ip := D.ip ++ [D.M], npending := D.npending + 1, M := D.M + 1 } :
      Deleteto).deletedto = D.deletedto := by
    unfold Deleteto.deletedto
    cases D.ip <;> rfl
  refine ⟨?_, ?_, ?_, ?_, ?_, hd ▸ h.read_le, ?_, ?_, hd ▸ h.flushed⟩
  · exact List.pairwise_append.mpr ⟨h.sorted, List.pairwise_singleton _ _,
      fun a ha b hb => (List.mem_singleton.mp hb) ▸ h.lt_M a ha⟩
  · simp only [List.mem_append, List.mem_singleton]
    rintro X (hX | rfl)
    · exact hlt X (h.lt_M X hX)
    · exact UInt64.lt_iff_toNat_lt.mpr (by rw [hsucc]; omega)
  · -- below `M + 1`: below `M`, or `M` itself, now in progress
    intro b hb
    rw [UInt64.lt_iff_toNat_lt, hsucc] at hb
    simp only [List.mem_append, List.mem_singleton]
    rcases Nat.lt_succ_iff_lt_or_eq.mp hb with hb' | hb'
    · exact (h.below b (UInt64.lt_iff_toNat_lt.mpr hb')).imp_right Or.inl
    · exact Or.inr (Or.inr (UInt64.toNat_inj.mp hb'))
  · simp [h.npending]
  · exact hnp
  · show (D.M + 1).toNat ≤ read.toNat + MAXUNRECORDED.toNat
    have := toNat_lt_of_lt_add h.read_le_M hread
    omega
  · simp only [List.mem_append, List.mem_singleton]
    rintro X (hX | rfl)
    · exact h.issued X hX
    · exact hN

/-- The DELETE of a block in progress completing keeps the invariant: the block leaves the
blocks in progress and the reported value does not drop. -/
theorem complete (h : DeletetoInv D read C I) {X : UInt64} (hX : X ∈ D.ip) :
    DeletetoInv { D with ip := D.ip.erase X, npending := D.npending - 1 } read (C ++ [X]) I := by
  have hd := deletedto_le_erase h.sorted h.lt_M X
  refine ⟨h.sorted.erase X, fun Y hY => h.lt_M Y (List.mem_of_mem_erase hY), ?_, ?_, ?_,
    UInt64.le_trans h.read_le hd, h.M_le, h.issued, UInt64.le_trans h.flushed hd⟩
  · -- a block below `M` in progress is now completed, or still in progress
    intro b hb
    simp only [List.mem_append, List.mem_singleton]
    by_cases hbX : b = X
    · exact Or.inl (Or.inr hbX)
    · exact (h.below b hb).imp Or.inl (List.mem_erase_of_ne hbX).mpr
  · simp [h.npending, List.length_erase_of_mem hX]
  · have := h.npending_le
    dsimp only
    omega

/-- Raising `N` keeps the invariant. -/
theorem raise (h : DeletetoInv D read C I) (N : UInt64) :
    DeletetoInv (if D.N < N then { D with N } else D) read C I := by
  split_ifs with hN
  · exact { h with issued := fun X hX => UInt64.lt_trans (h.issued X hX) hN }
  · exact h

end DeletetoInv

/-! ## The loop and `poke` -/

section Loop

variable (read : UInt64)

/-- The loop appends what it issues to the blocks in progress. -/
theorem issueLoop_ip (n : ℕ) (D : Deleteto) :
    (issueLoop read n D).1.ip = D.ip ++ (issueLoop read n D).2 := by
  induction n generalizing D with
  | zero => simp [issueLoop]
  | succ n ih =>
    unfold issueLoop
    split_ifs
    · simp only [ih, List.append_assoc, List.singleton_append]
    · simp

/-- The loop does not change the reported value: the first block it issues is `M`. -/
theorem issueLoop_deletedto (n : ℕ) (D : Deleteto) :
    (issueLoop read n D).1.deletedto = D.deletedto := by
  induction n generalizing D with
  | zero => rfl
  | succ n ih =>
    unfold issueLoop
    split_ifs
    · rw [ih]
      unfold Deleteto.deletedto
      cases D.ip <;> rfl
    · rfl

/-- The loop keeps the deleter's invariant, one round at a time. -/
theorem issueLoop_inv {C I : List UInt64} (n : ℕ) (D : Deleteto)
    (h : DeletetoInv D read C I) :
    DeletetoInv (issueLoop read n D).1 read C (I ++ (issueLoop read n D).2) := by
  induction n generalizing D I with
  | zero => simpa [issueLoop] using h
  | succ n ih =>
    unfold issueLoop
    split_ifs with hguard
    · obtain ⟨hN, hnp, hread⟩ := hguard
      have h' := ih _ (h.issue hN hnp hread)
      simpa only [List.append_assoc, List.singleton_append] using h'
    · simpa using h

end Loop

section Poke

variable {D : Deleteto} {MD : Metadata κ}

/-- `poke` reports the deleter's value to the metadata code, then at most starts a write. -/
theorem poke_metadata (D : Deleteto) (MD : Metadata κ) :
    ((poke D MD).2.1, (poke D MD).2.2.2) = (metadataDeletedtoWrite MD D.deletedto, none) ∨
      ((poke D MD).2.1, (poke D MD).2.2.2) =
        writemetadata (metadataDeletedtoWrite MD D.deletedto) := by
  unfold poke
  dsimp only
  split_ifs <;> simp [metadataFlush]

/-- `poke` keeps the deleter's invariant, appends what it issues to the blocks in progress and
keeps the reported value. -/
theorem poke_deleter {C I : List UInt64} (h : DeletetoInv D (metadataDeletedtoRead MD) C I) :
    DeletetoInv (poke D MD).1 (metadataDeletedtoRead MD) C (I ++ (poke D MD).2.2.1) ∧
      (poke D MD).1.ip = D.ip ++ (poke D MD).2.2.1 ∧ (poke D MD).1.deletedto = D.deletedto := by
  unfold poke
  dsimp only
  split_ifs with hsd hnp hread h1 hflush
  · exact ⟨by simpa using h, by simp, rfl⟩
  · have h' : DeletetoInv { D with shutdown := true } _ C I := h.congr rfl rfl rfl rfl h.flushed
    exact ⟨by simpa using h', by simp, rfl⟩
  · have h' : DeletetoInv { D with shuttingdown := 2 } _ C I := h.congr rfl rfl rfl rfl h.flushed
    exact ⟨by simpa using h', by simp, rfl⟩
  · exact ⟨by simpa using h, by simp, rfl⟩
  · -- a flush after the loop records the reported value in `flushed`
    have hl := issueLoop_inv _ MAXINPROGRESS D (I := I) (by simpa using h)
    have hd := issueLoop_deletedto (metadataDeletedtoRead MD) MAXINPROGRESS D
    refine ⟨hl.congr rfl rfl rfl rfl ?_, issueLoop_ip _ _ _, hd⟩
    show D.deletedto ≤ (issueLoop (metadataDeletedtoRead MD) MAXINPROGRESS D).1.deletedto
    rw [hd]
    exact UInt64.le_refl _
  · exact ⟨by simpa using issueLoop_inv _ MAXINPROGRESS D (I := I) (by simpa using h),
      issueLoop_ip _ _ _, issueLoop_deletedto _ _ _⟩

/-- `poke` does not change the stored values. -/
theorem poke_stored (D : Deleteto) (MD : Metadata κ) : (poke D MD).2.1.stored = MD.stored := by
  rcases poke_metadata D MD with h | h <;>
    · rw [Prod.mk.injEq] at h
      simp [h.1, metadataDeletedtoWrite]

/-- The value `poke` passes to `metadata_deletedto_write` is the deleter's reported value. -/
theorem poke_latest_deletedto (D : Deleteto) (MD : Metadata κ) :
    (poke D MD).2.1.latest.deletedto = D.deletedto := by
  rcases poke_metadata D MD with h | h <;>
    · rw [Prod.mk.injEq] at h
      simp [h.1, metadataDeletedtoWrite]

end Poke

end Kivaloo.LbsDynamodb
