import Boltchain.Consensus.MockScheme
import Boltchain.Contracts.Settlement

namespace Boltchain.Contracts.Rewards

open Boltchain.Consensus
open Lib Lib.Packed

inductive Cert (S : Scheme) where
  | qc (q : Qc S)
  | epoch (p : CommitProof S)

def Cert.voted {S : Scheme} : Cert S → Qc S
  | .qc q => q
  | .epoch p => p.qc

def certVotes {S : Scheme} : Option (Cert S) → Nat × Nat × Bytes
  | some c => (c.voted.epoch, c.voted.round, c.voted.signers)
  | none => (0, 0, [])

def onCertificate {S : Scheme} (s : Distributor) (burned minted : Nat) (cert : Option (Cert S)) : Option Distributor :=
  s.onBlock burned minted (certVotes cert).1 (certVotes cert).2.1 (certVotes cert).2.2

namespace Distributor

/-- The counters of an epoch have room for the votes of a bitmap. -/
def HasRoom (s : Distributor) (epoch : Nat) (bitmap : Bytes) : Prop := ∀ w, Room (s.votes epoch w) (bitsOf bitmap w)

theorem onBlock_isSome_iff (s : Distributor) (burned minted certEpoch certRound : Nat) (bitmap : Bytes) :
    (s.onBlock burned minted certEpoch certRound bitmap).isSome ↔ bitmap.length ≤ 64 ∧
      (s.supply < burned ∨ s.supply - burned + minted < 2 ^ 256) ∧
      (s.counts certEpoch certRound bitmap = true → s.HasRoom certEpoch bitmap) := by
  have hsupply : (∃ x, s.issued burned minted = some x) ↔ s.supply < burned ∨ s.supply - burned + minted < 2 ^ 256 := by
    unfold issued
    split
    · rename_i h
      exact ⟨fun _ => .inl h, fun _ => ⟨_, rfl⟩⟩
    · rename_i h
      simp only [Checked.add_eq_some, h, false_or]
      constructor
      · rintro ⟨_, hlt, -⟩
        exact hlt
      · exact fun hlt => ⟨_, hlt, rfl⟩
  have hroom : (∃ v, recordVotes (s.votes certEpoch) bitmap = some v) ↔ s.HasRoom certEpoch bitmap := by
    constructor
    · rintro ⟨v, hv⟩
      exact (recordVotes_eq_some.1 hv).1
    · exact fun h => ⟨_, recordVotes_eq_some.2 ⟨h, rfl⟩⟩
  rw [Option.isSome_iff_exists, ← hsupply, ← hroom]
  simp only [onBlock, bind, Option.bind_eq_some_iff, Checked.require_eq_some, exists_const]
  constructor
  · rintro ⟨s', supply, hissued, hlength, h⟩
    refine ⟨hlength, ⟨supply, hissued⟩, fun hcounts => ?_⟩
    rw [if_pos hcounts] at h
    obtain ⟨v, hv, -⟩ := Option.bind_eq_some_iff.1 h
    exact ⟨v, hv⟩
  · rintro ⟨hlength, ⟨supply, hissued⟩, hcounted⟩
    by_cases hcounts : s.counts certEpoch certRound bitmap = true
    · obtain ⟨v, hv⟩ := hcounted hcounts
      exact ⟨_, supply, hissued, hlength, (if_pos hcounts).trans (Option.bind_eq_some_iff.2 ⟨v, hv, rfl⟩)⟩
    · exact ⟨_, supply, hissued, hlength, if_neg hcounts⟩

end Distributor

theorem Tally.Sound.hasRoom {t : Tally} (h : t.Sound) (hb : t.Bounded) {epoch : Nat}
    (hfew : (t.rounds epoch).card < 65535) (bitmap : Bytes) : t.dist.HasRoom epoch bitmap := by
  intro w
  have hcount : ∀ i, t.tallied epoch i + 1 < 2 ^ 16 := by
    intro i
    have := h.tallied_le_rounds epoch i
    omega
  have hsum : t.dist.votes epoch w + spread (bitsOf bitmap w) < 2 ^ (16 * 16) := by
    rw [h.packed hb, spread, ← pack_add]
    refine pack_lt fun k _ => ?_
    have hbit : ((bitsOf bitmap w).testBit k).toNat ≤ 1 := Bool.toNat_le _
    have := hcount (16 * w + k)
    omega
  exact .inr hsum

/-- After every run of calls in which at most 65,535 rounds of an epoch are recorded, the block that
carries a certificate goes through if and only if the signer bitmap has at most 64 bytes, the supply fits
its word and, should the certificate count, the counters have room; they do while fewer than 65,535
rounds of its epoch are recorded. -/
theorem certificate_executes_iff {S : Scheme} (genesisSupply : Nat) (t : Tally) (h : t.Reached genesisSupply)
    (hb : t.Bounded) (burned minted : Nat) (cert : Cert S) :
    ((onCertificate t.dist burned minted (some cert)).isSome ↔ cert.voted.signers.length ≤ 64 ∧
      (t.dist.supply < burned ∨ t.dist.supply - burned + minted < 2 ^ 256) ∧
      (t.dist.counts cert.voted.epoch cert.voted.round cert.voted.signers = true →
        t.dist.HasRoom cert.voted.epoch cert.voted.signers)) ∧
    ((t.rounds cert.voted.epoch).card < 65535 → t.dist.HasRoom cert.voted.epoch cert.voted.signers) :=
  ⟨Distributor.onBlock_isSome_iff .., fun hfew => h.sound.hasRoom hb hfew _⟩

section Mock

/-- The certificate of a committee of one, its bitmap padded to 65 bytes. -/
def paddedCert : Cert MockScheme :=
  .qc ⟨1, 1, 5, 1, 1 :: List.replicate 64 0, some [(0, .vote 8017 1 1 5)]⟩

/-- The certificate is accepted, and the block that carries it cannot be executed. -/
theorem accepted_certificate_reverts : paddedCert.voted.verify (.fromSeats 1 [0]) 8017 1 0 = true ∧
    (onCertificate (.genesis 0) 0 0 (some paddedCert)).isSome = false := by
  constructor <;> decide +kernel

theorem certificate_executes_iff_one :
    (onCertificate (.genesis 0) 0 0 (some (.qc (S := MockScheme) ⟨1, 1, 5, 1, [1], some [(0, .vote 8017 1 1 5)]⟩))).isSome := by
  have hbounded : Tally.Bounded ⟨.genesis 0, [], []⟩ := Tally.bounded_of_length (Nat.zero_le _)
  obtain ⟨hiff, hroom⟩ := certificate_executes_iff 0 _ .init hbounded 0 0
    (.qc (S := MockScheme) ⟨1, 1, 5, 1, [1], some [(0, .vote 8017 1 1 5)]⟩)
  exact hiff.2 ⟨by decide, .inr (by decide), fun _ => hroom (by decide)⟩

end Mock

end Boltchain.Contracts.Rewards
