import Mathlib

namespace Boltchain.Lib.Chase

variable {α : Type} {next : α → Option α} {a y z : α} {n m : Nat} {l : List α}

/-- Following `next` from `a` stops at `z` after `n` steps. -/
inductive Stops (next : α → Option α) : Nat → α → α → Prop
  | here {a : α} (h : next a = none) : Stops next 0 a a
  | step {a b z : α} {n : Nat} (h : next a = some b) (hb : Stops next n b z) : Stops next (n + 1) a z

theorem Stops.unique (h : Stops next n a z) (h' : Stops next m a y) : n = m ∧ z = y := by
  induction h generalizing m with
  | here hn =>
    cases h' with
    | here => exact ⟨rfl, rfl⟩
    | step hs => rw [hn] at hs; cases hs
  | step hs _ ih =>
    cases h' with
    | here hn => rw [hn] at hs; cases hs
    | step hs' hb =>
      rw [hs] at hs'
      cases hs'
      obtain ⟨rfl, rfl⟩ := ih hb
      exact ⟨rfl, rfl⟩

theorem Stops.exists_trail (h : Stops next n a z) (hl : ∀ a b, next a = some b → b ∈ l) :
    ∃ t : List α, t.length = n ∧ t.Nodup ∧ ∀ x ∈ t, x ∈ l ∧ ∃ m < n, Stops next m x z := by
  induction h with
  | here => exact ⟨[], rfl, List.nodup_nil, by simp⟩
  | @step a b z n hs hb ih =>
    obtain ⟨t, hlen, hnodup, ht⟩ := ih
    refine ⟨b :: t, by rw [List.length_cons, hlen], List.nodup_cons.2 ⟨fun hmem => ?_, hnodup⟩, fun x hx => ?_⟩
    · -- a place met again would have as far to go as before
      obtain ⟨-, m, hm, hends⟩ := ht b hmem
      exact absurd (hb.unique hends).1 (Nat.ne_of_gt hm)
    · obtain rfl | hx := List.mem_cons.1 hx
      · exact ⟨hl _ _ hs, n, Nat.lt_succ_self n, hb⟩
      · obtain ⟨hmem, m, hm, hends⟩ := ht x hx
        exact ⟨hmem, m, Nat.lt_succ_of_lt hm, hends⟩

theorem Stops.le_length (h : Stops next n a z) (hl : ∀ a b, next a = some b → b ∈ l) : n ≤ l.length := by
  obtain ⟨t, rfl, hnodup, ht⟩ := h.exists_trail hl
  exact (hnodup.subperm fun x hx => (ht x hx).1).length_le

variable {P : α → Prop}

theorem Stops.keeps (h : Stops next n a z) (hP : ∀ a b, P a → next a = some b → P b) (ha : P a) :
    P z ∧ next z = none := by
  induction h with
  | here hn => exact ⟨ha, hn⟩
  | step hs _ ih => exact ih (hP _ _ ha hs)

theorem exists_stops (μ : α → Nat) (hP : ∀ a b, P a → next a = some b → P b ∧ μ b < μ a) (ha : P a) :
    ∃ n z, Stops next n a z := by
  induction hk : μ a using Nat.strong_induction_on generalizing a with
  | _ k ih =>
    cases hn : next a with
    | none => exact ⟨0, a, .here hn⟩
    | some b =>
      obtain ⟨hb, hlt⟩ := hP a b ha hn
      obtain ⟨n, z, hends⟩ := ih (μ b) (hk ▸ hlt) hb rfl
      exact ⟨n + 1, z, .step hn hends⟩

theorem not_stops_of_cycle {b : α} (hab : next a = some b) (hba : next b = some a) : ¬ Stops next n a z := by
  intro h
  obtain ⟨hx, hz⟩ := h.keeps (P := fun x => x = a ∨ x = b) (fun x y hx hy => by
    obtain rfl | rfl := hx
    · exact .inr (Option.some.inj (hy.symm.trans hab))
    · exact .inl (Option.some.inj (hy.symm.trans hba))) (.inl rfl)
  obtain rfl | rfl := hx
  · rw [hab] at hz; cases hz
  · rw [hba] at hz; cases hz

end Boltchain.Lib.Chase
