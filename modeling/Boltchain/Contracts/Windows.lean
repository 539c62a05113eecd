import Boltchain.Contracts.Registry
import Boltchain.Lib.TimedLog

namespace Boltchain.Contracts

open Boltchain.Consensus (Bytes)
open Lib Lib.TimedLog

namespace Registry

/-- A registry with the slashes recorded so far, each with the epoch it was recorded in. Epochs do not go back. -/
inductive Recorded : Registry → List (Nat × Nat) → Prop where
  | genesis : Recorded genesis []
  | initializeWith (c : StoredCommittee) : Recorded (genesis.initializeWith c) []
  | beginEpoch {r r' : Registry} {log : List (Nat × Nat)} {epoch streakRequired : Nat} {checkpointMet posMet : Bool} :
      Recorded r log → r.currentEpoch ≤ epoch →
      r.beginEpoch epoch checkpointMet posMet streakRequired = some r' → Recorded r' log
  | setCommittee {r : Registry} {log : List (Nat × Nat)} (epoch : Nat) (c : StoredCommittee) :
      Recorded r log → Recorded (r.setCommittee epoch c) log
  | useEvidence {r : Registry} {log : List (Nat × Nat)} (key : Nat) :
      Recorded r log → Recorded { r with evidenceUsed := Function.update r.evidenceUsed key true } log
  | recordSlash {r r' : Registry} {log : List (Nat × Nat)} {amount : Nat} :
      Recorded r log → r.recordSlash amount = some r' → Recorded r' ((r.currentEpoch, amount) :: log)

variable {r r' : Registry} {log : List (Nat × Nat)}

/-- The epoch and the ring of slashed amounts are the same. -/
structure SameRing (r r' : Registry) : Prop where
  epoch : r'.currentEpoch = r.currentEpoch
  ring : r'.slashedRing = r.slashedRing
  tags : r'.slashedRingEpoch = r.slashedRingEpoch

theorem SameRing.refl (r : Registry) : SameRing r r := ⟨rfl, rfl, rfl⟩

theorem SameRing.trans {r'' : Registry} (h : SameRing r r') (h' : SameRing r' r'') : SameRing r r'' :=
  ⟨h'.epoch.trans h.epoch, h'.ring.trans h.ring, h'.tags.trans h.tags⟩

variable {epoch streakRequired : Nat} {met : Bool}

theorem countCheckpoint_ring
    (h : r.countCheckpoint epoch met streakRequired = some r') : SameRing r r' := by
  unfold countCheckpoint at h
  split at h
  · cases h
    exact .refl r
  · simp only [bind, Option.bind_eq_some_iff] at h
    obtain ⟨streak, -, h⟩ := h
    split at h
    · obtain ⟨first, -, h⟩ := Option.bind_eq_some_iff.1 h
      cases h
      exact ⟨rfl, rfl, rfl⟩
    · cases h
      exact ⟨rfl, rfl, rfl⟩

theorem countPos_ring (h : r.countPos epoch met streakRequired = some r') :
    SameRing r r' := by
  unfold countPos at h
  split at h
  · cases h
    exact .refl r
  · simp only [bind, Option.bind_eq_some_iff] at h
    obtain ⟨streak, -, h⟩ := h
    split at h
    · obtain ⟨first, -, h⟩ := Option.bind_eq_some_iff.1 h
      cases h
      split <;> exact ⟨rfl, rfl, rfl⟩
    · cases h
      exact ⟨rfl, rfl, rfl⟩

theorem forget_ring (h : r.forget epoch = some r') : SameRing r r' := by
  obtain ⟨next, -, h⟩ := Option.bind_eq_some_iff.1 h
  split at h
  · cases h
    exact ⟨rfl, rfl, rfl⟩
  · cases h
    exact .refl r

theorem beginEpoch_ring {checkpointMet posMet : Bool}
    (h : r.beginEpoch epoch checkpointMet posMet streakRequired = some r') :
    SameRing { r with currentEpoch := epoch } r' := by
  simp only [beginEpoch, bind, Option.bind_eq_some_iff] at h
  obtain ⟨r₁, h₁, r₂, h₂, h₃⟩ := h
  exact (countCheckpoint_ring h₁).trans ((countPos_ring h₂).trans (forget_ring h₃))

/-- The ring stands for the log, and none of its tags is of a later epoch. -/
structure Refined (r : Registry) (log : List (Nat × Nat)) : Prop where
  ring : Refines r.slashedRingEpoch r.slashedRing log
  past : ∀ i, r.slashedRingEpoch i ≤ r.currentEpoch
  logged : ∀ e ∈ log, e.1 ≤ r.currentEpoch

theorem Refined.of_same (h : r.Refined log) (hs : SameRing r r') : r'.Refined log where
  ring := by
    rw [hs.tags, hs.ring]
    exact h.ring
  past := by
    rw [hs.tags, hs.epoch]
    exact h.past
  logged := by
    rw [hs.epoch]
    exact h.logged

theorem Refined.recordSlash (h : r.Refined log) {amount : Nat} (hr : r.recordSlash amount = some r') :
    r'.Refined ((r.currentEpoch, amount) :: log) := by
  simp only [Registry.recordSlash, bind, Option.bind_eq_some_iff, Checked.add_eq_some] at hr
  obtain ⟨sum, ⟨-, rfl⟩, hr⟩ := hr
  cases hr
  refine ⟨h.ring.record h.past, fun i => ?_, fun e he => ?_⟩
  · show Function.update r.slashedRingEpoch (Fin.ofNat 16 r.currentEpoch) r.currentEpoch i ≤ r.currentEpoch
    by_cases hi : i = Fin.ofNat 16 r.currentEpoch
    · rw [hi, Function.update_self]
    · rw [Function.update_of_ne hi]
      exact h.past i
  · cases he with
    | head => exact Nat.le_refl _
    | tail _ he => exact h.logged e he

theorem Recorded.refined (h : Recorded r log) : r.Refined log := by
  induction h with
  | genesis => exact ⟨.empty, fun _ => Nat.le_refl _, fun _ he => (by cases he)⟩
  | initializeWith c => exact ⟨.empty, fun _ => Nat.le_refl _, fun _ he => (by cases he)⟩
  | @beginEpoch r r' log epoch _ _ _ _ hle hb ih =>
    have hlater : Refined { r with currentEpoch := epoch } log :=
      ⟨ih.ring, fun i => (ih.past i).trans hle, fun e he => (ih.logged e he).trans hle⟩
    exact hlater.of_same (beginEpoch_ring hb)
  | setCommittee epoch c _ ih => exact ih.of_same ⟨rfl, rfl, rfl⟩
  | useEvidence key _ ih => exact ih.of_same ⟨rfl, rfl, rfl⟩
  | recordSlash _ hr ih => exact ih.recordSlash hr

def recentCell (r : Registry) (i : Fin 16) : Nat :=
  if r.currentEpoch ≤ r.slashedRingEpoch i + Sys.UNBONDING_EPOCHS then r.slashedRing i else 0

variable {places : List (Fin 16)} {start : Nat}

theorem foldlM_recent_eq {recent : Nat}
    (h : places.foldlM (fun recent i => do
      let last ← Checked.add 64 (r.slashedRingEpoch i) Sys.UNBONDING_EPOCHS
      if r.currentEpoch ≤ last then Checked.add 256 recent (r.slashedRing i) else some recent) start = some recent) :
    recent = start + (places.map r.recentCell).sum := by
  induction places generalizing start with
  | nil =>
    cases h
    rfl
  | cons i places ih =>
    simp only [List.foldlM_cons, bind, Option.bind_eq_some_iff, Checked.add_eq_some] at h
    obtain ⟨next, ⟨last, ⟨-, rfl⟩, hnext⟩, hrest⟩ := h
    have hcell : next = start + r.recentCell i := by
      unfold recentCell
      split at hnext
      case isTrue hin =>
        rw [if_pos hin]
        exact (Checked.add_eq_some.1 hnext).2.symm
      case isFalse hout =>
        rw [if_neg hout]
        exact (Option.some_inj.1 hnext).symm
    rw [ih hrest, hcell, List.map_cons, List.sum_cons, Nat.add_assoc]

theorem foldlM_recent_some
    (hepoch : ∀ i, r.slashedRingEpoch i + Sys.UNBONDING_EPOCHS < 2 ^ 64)
    (hsum : start + (places.map r.recentCell).sum < 2 ^ 256) :
    places.foldlM (fun recent i => do
      let last ← Checked.add 64 (r.slashedRingEpoch i) Sys.UNBONDING_EPOCHS
      if r.currentEpoch ≤ last then Checked.add 256 recent (r.slashedRing i) else some recent) start =
      some (start + (places.map r.recentCell).sum) := by
  induction places generalizing start with
  | nil => rfl
  | cons i places ih =>
    rw [List.map_cons, List.sum_cons, ← Nat.add_assoc] at hsum ⊢
    have hcell : (if r.currentEpoch ≤ r.slashedRingEpoch i + Sys.UNBONDING_EPOCHS then
        Checked.add 256 start (r.slashedRing i) else some start) = some (start + r.recentCell i) := by
      unfold recentCell at hsum ⊢
      split
      case isTrue hin =>
        rw [if_pos hin] at hsum
        exact Checked.add_of_lt (by omega)
      case isFalse => rfl
    rw [List.foldlM_cons, Checked.add_of_lt (hepoch i)]
    simp only [Option.bind_eq_bind, Option.bind_some, hcell]
    exact ih hsum

theorem Refined.sum_recent (h : r.Refined log) :
    ((List.finRange 16).map r.recentCell).sum =
      sumWhere (fun t => r.currentEpoch - Sys.UNBONDING_EPOCHS ≤ t ∧ t ≤ r.currentEpoch) log := by
  have hwindow := h.ring.window (show Sys.UNBONDING_EPOCHS < 16 by decide) h.past
  have hcells : ((List.finRange 16).map r.recentCell).sum = ∑ i, r.recentCell i :=
    (List.sum_toFinset _ (List.nodup_finRange 16)).symm.trans (by rw [List.toFinset_finRange])
  rw [hcells]
  refine hwindow.trans ?_
  apply Nat.le_antisymm
  · apply sumWhere_mono
    intro e he hin
    exact ⟨Nat.sub_le_iff_le_add.2 hin, h.logged e he⟩
  · apply sumWhere_mono
    intro e _ hin
    exact Nat.sub_le_iff_le_add.1 hin.1

end Registry

end Boltchain.Contracts
