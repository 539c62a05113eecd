import Boltchain.Lib.Checked
import Boltchain.Consensus.Inner

namespace Boltchain.Consensus

open Lib.Assoc
open Lib.Checked (add mul both Computes)

variable {S : Scheme} {H : Hasher} {cfg : Config} {e : Engine S}

namespace ValidatorSet

def checkedQuorum (set : ValidatorSet) (weight : UInt64) : Option Bool :=
  (mul 64 weight.toNat 3).bind fun a => (mul 64 set.total.toNat 2).map fun b => decide (b < a)

def Weighs (set : ValidatorSet) (signers : List Nat) : Prop :=
  (set.weightOf signers).toNat * 3 < 2 ^ 64 ∧ set.total.toNat * 2 < 2 ^ 64

theorem computes_checkedQuorum (set : ValidatorSet) (l : List Nat) :
    Computes (set.checkedQuorum (set.weightOf l)) (set.Weighs l) (set.isQuorum (set.weightOf l)) := by
  have h := Computes.less 64 (set.weightOf l).toNat 3 set.total.toNat 2
  refine ⟨fun hw => (h.eq_some hw).trans ?_, h.eq_none⟩
  have h2 : (2 : UInt64).toNat = 2 := rfl
  have h3 : (3 : UInt64).toNat = 3 := rfl
  rw [isQuorum, Option.some_inj, decide_eq_decide, gt_iff_lt, UInt64.lt_iff_toNat_lt, UInt64.toNat_mul,
    UInt64.toNat_mul, h2, h3, Nat.mod_eq_of_lt hw.1, Nat.mod_eq_of_lt hw.2]

theorem mass_le_total (set : ValidatorSet) (A : Finset Nat) : set.mass A ≤ set.fullTotal := by
  have hzero : ∀ i ∈ A, i ∉ A.filter (· < set.len) → (set.weight i).toNat = 0 := by
    intro i hi hnot
    have hge : set.weights.length ≤ i := not_lt.1 fun hlt => hnot (Finset.mem_filter.2 ⟨hi, hlt⟩)
    rw [weight, List.getElem?_eq_none hge]
    rfl
  rw [mass, ← Finset.sum_subset (Finset.filter_subset _ A) hzero]
  exact set.mass_le_fullTotal fun i hi => (Finset.mem_filter.1 hi).2

theorem weighs_of_nodup {set : ValidatorSet} (ht : 3 * set.fullTotal < 2 ^ 64) {l : List Nat} (hl : l.Nodup) :
    set.Weighs l := by
  have hle := (set.toNat_weightOf_le hl).trans (set.mass_le_total _)
  have htotal := set.toNat_total_le
  exact ⟨by omega, by omega⟩

end ValidatorSet

def Qc.checkedVerify (qc : Qc S) (set : ValidatorSet) (chainId epoch : Nat) (anchor : Hash) : Option Bool :=
  both (some (qc.epoch == epoch))
    (if qc.isAnchor then some (qc.block == anchor)
    else
      match qc.sig with
      | none => some false
      | some sig => both (some (decide (0 < qc.round)))
          (both (set.checkedQuorum (set.weightOf (Bitmap.decode qc.signers)))
            (some ((Bitmap.decode qc.signers).all (· < set.len)
              && S.verifyAggregate (Bitmap.decode qc.signers) (.vote chainId qc.epoch qc.round qc.block) sig))))

/-- The weight that `Qc::verify` finds, if it gets that far, fits. -/
def Qc.Weighs (qc : Qc S) (cfg : Config) : Prop :=
  qc.epoch = cfg.epoch → qc.isAnchor = false → qc.sig.isSome = true → 0 < qc.round →
    cfg.validators.Weighs (Bitmap.decode qc.signers)

theorem Qc.computes_checkedVerify (qc : Qc S) (cfg : Config) :
    Computes (qc.checkedVerify cfg.validators cfg.chainId cfg.epoch cfg.anchor.hash) (qc.Weighs cfg)
      (qc.verify cfg.validators cfg.chainId cfg.epoch cfg.anchor.hash) := by
  unfold Qc.checkedVerify Qc.verify Qc.Weighs
  by_cases hep : qc.epoch = cfg.epoch
  · cases hanchor : qc.isAnchor with
    | true =>
      refine ((Computes.pure _).both (Computes.pure (qc.block == cfg.anchor.hash))).congr ?_ ?_
      · simp
      · simp [hep]
    | false =>
      cases hsig : qc.sig with
      | none =>
        refine ((Computes.pure _).both (Computes.pure false)).congr ?_ ?_
        · simp
        · simp [hep]
      | some sig =>
        refine ((Computes.pure _).both ((Computes.pure _).both
          ((cfg.validators.computes_checkedQuorum _).both (Computes.pure _)))).congr ?_ ?_
        · simp [hep]
        · simp [hep, Bool.and_assoc]
  · refine ⟨fun _ => ?_, fun h => absurd (fun h' => absurd h' hep) h⟩
    simp [both, hep]

def Tc.checkedVerify (tc : Tc S) (set : ValidatorSet) (chainId epoch : Nat) (anchor : Hash) : Option Bool :=
  both (some (tc.epoch == epoch && (tc.entries.map (·.1)).dedup.length == tc.entries.length))
    (both (set.checkedQuorum (set.weightOf (tc.entries.map (·.1)).dedup))
      (both (some ((tc.entries.map (·.1)).dedup.all (· < set.len)
          && tc.entries.all (fun e => decide (e.2.1 < tc.round)
            && S.verify e.1 (.timeout chainId epoch tc.round e.2.1) e.2.2)
          && tc.highQc.round == tc.maxQcRound))
        (tc.highQc.checkedVerify set chainId epoch anchor)))

def Tc.opens (tc : Tc S) (cfg : Config) : Bool :=
  tc.epoch == cfg.epoch && (tc.entries.map (·.1)).dedup.length == tc.entries.length
    && cfg.validators.isQuorum (cfg.validators.weightOf (tc.entries.map (·.1)).dedup)
    && (tc.entries.map (·.1)).dedup.all (· < cfg.validators.len)
    && tc.entries.all (fun e => decide (e.2.1 < tc.round)
      && S.verify e.1 (.timeout cfg.chainId cfg.epoch tc.round e.2.1) e.2.2)
    && tc.highQc.round == tc.maxQcRound

theorem Tc.computes_checkedVerify (tc : Tc S) (ht : 3 * cfg.validators.fullTotal < 2 ^ 64) :
    Computes (tc.checkedVerify cfg.validators cfg.chainId cfg.epoch cfg.anchor.hash)
      (tc.opens cfg = true → tc.highQc.Weighs cfg)
      (tc.verify cfg.validators cfg.chainId cfg.epoch cfg.anchor.hash) := by
  have hw := ValidatorSet.weighs_of_nodup ht (List.nodup_dedup (tc.entries.map (·.1)))
  refine ((Computes.pure _).both ((cfg.validators.computes_checkedQuorum _).both
    ((Computes.pure _).both (tc.highQc.computes_checkedVerify cfg)))).congr ?_ ?_
  · simp only [Tc.opens, true_and, hw, Bool.and_eq_true, and_imp]
  · simp only [Tc.verify, Bool.and_assoc]

namespace Engine

def voteSet (e : Engine S) (v : Vote S) : VoteSet S :=
  (e.votes.lookup (v.round, v.block)).getD ⟨v.height, [], [], false⟩

def checkedVerifyQc (e : Engine S) (qc : Qc S) : Option Bool :=
  qc.checkedVerify e.cfg.validators e.cfg.chainId e.cfg.epoch e.cfg.anchor.hash

def checkedVerifyTc (e : Engine S) (tc : Tc S) : Option Bool :=
  tc.checkedVerify e.cfg.validators e.cfg.chainId e.cfg.epoch e.cfg.anchor.hash

/-- The tests of `on_proposal` between its first sum and its certificates. -/
def signedProposal (H : Hasher) (e : Engine S) (p : Proposal S) : Bool :=
  decide (p.qc.round < p.block.round)
    && (!e.isNilHeight p.block.height
      || (p.block.hash == H.nilHash e.cfg.epoch p.block.parent p.block.round && p.payload.isEmpty))
    && S.verify p.proposer (e.proposalMsg H p.block.round p.block.hash p.payload) p.sig

/-- The tests of `on_timeout_msg` between its first sum and its certificates. -/
def signedTimeout (e : Engine S) (t : Timeout S) : Bool :=
  decide (t.highQc.round < t.round) && S.verify t.signer (e.timeoutMsg t.round t.highQc.round) t.sig

def checkedProposal (H : Hasher) (e : Engine S) (p : Proposal S) : Option Bool :=
  both (some (p.epoch == e.cfg.epoch && p.proposer == e.leader p.block.round && p.block.round != 0
      && p.block.parent == p.qc.block))
    (both ((add 64 p.qc.height 1).map (p.block.height == ·))
      (both (some (e.signedProposal H p))
        (both (e.checkedVerifyQc p.qc)
          (match p.tc with
          | some tc => both ((add 64 tc.round 1).map (· == p.block.round)) (e.checkedVerifyTc tc)
          | none => some true))))

/-- The checks of `on_timeout_msg` up to its last certificate on `u64` words, in their order. -/
def checkedTimeout (e : Engine S) (t : Timeout S) : Option Bool :=
  both (some (t.epoch == e.cfg.epoch && decide (t.signer < e.cfg.validators.len)))
    (both ((add 64 t.round 2).map (decide <| e.round ≤ ·))
      (both (some (e.signedTimeout t))
        (both (e.checkedVerifyQc t.highQc)
          (match t.lastTc with
          | some tc => both ((add 64 tc.round 1).map (· == t.round))
              (both (some (decide (e.round ≤ tc.round))) (e.checkedVerifyTc tc))
          | none => some true))))

/-- The checks of `on_vote` up to those of signatures on `u64` words, in their order. -/
def checkedVote (e : Engine S) (v : Vote S) : Option Bool :=
  both ((add 64 v.round 1).map fun r => e.isMe (e.leader r))
    (both (some (v.epoch == e.cfg.epoch && decide (v.signer < e.cfg.validators.len)))
      (both ((add 64 v.round 2).map (decide <| e.round ≤ ·))
        (match (e.voteSet v).add v (e.voteMsg v.round v.block) with
        | some set => e.cfg.validators.checkedQuorum (e.cfg.validators.weightOf set.signers)
        | none => some false)))

/-- What `on_message` computes of a message on `u64` words before it relies on a signature. -/
def checkedMessage (H : Hasher) (e : Engine S) : Message S → Option Bool
  | .proposal p => e.checkedProposal H p
  | .vote v => e.checkedVote v
  | .timeout t => e.checkedTimeout t

def checks (H : Hasher) (e : Engine S) : Message S → Bool
  | .proposal p => e.checkProposal H p
  | .vote v => e.takesVote v && (match (e.voteSet v).add v (e.voteMsg v.round v.block) with
    | some set => e.cfg.validators.isQuorum (e.cfg.validators.weightOf set.signers)
    | none => false)
  | .timeout t => e.checkTimeout t && (match t.lastTc with
    | some tc => tc.round + 1 == t.round && decide (e.round ≤ tc.round) && e.verifyTc tc
    | none => true)

/-- The fields of the message, as far as they come to be used, leave room for the sums, and no
certificate in it names members so often that their weight does not. -/
def InRange (H : Hasher) (e : Engine S) : Message S → Prop
  | .proposal p => p.proposer = e.leader p.block.round → p.block.round ≠ 0 → p.block.parent = p.qc.block →
      p.qc.height + 1 < 2 ^ 64 ∧ (p.block.height = p.qc.height + 1 → e.signedProposal H p = true →
        p.qc.Weighs e.cfg ∧ (e.verifyQc p.qc = true → ∀ tc ∈ p.tc, tc.round + 1 < 2 ^ 64 ∧
          (tc.round + 1 = p.block.round → tc.opens e.cfg = true → tc.highQc.Weighs e.cfg)))
  | .vote v => v.round + 1 < 2 ^ 64 ∧
      (e.isMe (e.leader (v.round + 1)) = true → v.signer < e.cfg.validators.len → v.round + 2 < 2 ^ 64)
  | .timeout t => t.signer < e.cfg.validators.len →
      t.round + 2 < 2 ^ 64 ∧ (e.round ≤ t.round + 2 → e.signedTimeout t = true →
        t.highQc.Weighs e.cfg ∧ (e.verifyQc t.highQc = true → ∀ tc ∈ t.lastTc, tc.round + 1 < 2 ^ 64 ∧
          (tc.round + 1 = t.round → e.round ≤ tc.round → tc.opens e.cfg = true → tc.highQc.Weighs e.cfg)))

section

variable (ht : 3 * e.cfg.validators.fullTotal < 2 ^ 64)

include ht

theorem computes_checkedProposal {p : Proposal S} (hep : p.epoch = e.cfg.epoch) :
    Computes (e.checkedProposal H p) (e.InRange H (.proposal p)) (e.checkProposal H p) := by
  have htc : Computes (match p.tc with
      | some tc => both ((add 64 tc.round 1).map (· == p.block.round)) (e.checkedVerifyTc tc)
      | none => some true)
      (∀ tc ∈ p.tc, tc.round + 1 < 2 ^ 64 ∧
        (tc.round + 1 = p.block.round → tc.opens e.cfg = true → tc.highQc.Weighs e.cfg))
      (match p.tc with
      | some tc => tc.round + 1 == p.block.round && e.verifyTc tc
      | none => true) := by
    cases p.tc with
    | none => exact (Computes.pure true).congr (by simp) rfl
    | some tc =>
      exact ((Computes.sum 64 tc.round 1 (· == p.block.round)).both (tc.computes_checkedVerify ht)).congr (by simp) rfl
  refine ((Computes.pure _).both ((Computes.sum 64 p.qc.height 1 (p.block.height == ·)).both
    ((Computes.pure _).both ((p.qc.computes_checkedVerify e.cfg).both htc)))).congr ?_ ?_
  · simp only [InRange, hep, true_and, Bool.and_eq_true, beq_iff_eq, bne_iff_ne, and_imp, verifyQc]
  · unfold checkProposal
    cases p.tc with
    | none => simp only [signedProposal, verifyQc, Bool.and_assoc]
    | some tc => simp only [signedProposal, verifyQc, Bool.and_assoc]

theorem computes_checkedTimeout {t : Timeout S} (hep : t.epoch = e.cfg.epoch) :
    Computes (e.checkedTimeout t) (e.InRange H (.timeout t)) (e.checks H (.timeout t)) := by
  have htc : Computes (match t.lastTc with
      | some tc => both ((add 64 tc.round 1).map (· == t.round))
          (both (some (decide (e.round ≤ tc.round))) (e.checkedVerifyTc tc))
      | none => some true)
      (∀ tc ∈ t.lastTc, tc.round + 1 < 2 ^ 64 ∧
        (tc.round + 1 = t.round → e.round ≤ tc.round → tc.opens e.cfg = true → tc.highQc.Weighs e.cfg))
      (match t.lastTc with
      | some tc => tc.round + 1 == t.round && decide (e.round ≤ tc.round) && e.verifyTc tc
      | none => true) := by
    cases t.lastTc with
    | none => exact (Computes.pure true).congr (by simp) rfl
    | some tc =>
      refine ((Computes.sum 64 tc.round 1 (· == t.round)).both
        ((Computes.pure _).both (tc.computes_checkedVerify ht))).congr (by simp) ?_
      simp only [verifyTc, Bool.and_assoc]
  refine ((Computes.pure _).both ((Computes.sum 64 t.round 2 (decide <| e.round ≤ ·)).both
    ((Computes.pure _).both ((t.highQc.computes_checkedVerify e.cfg).both htc)))).congr ?_ ?_
  · simp only [InRange, hep, true_and, Bool.and_eq_true, beq_iff_eq, decide_eq_true_eq, verifyQc]
  · simp only [checks, checkTimeout, signedTimeout, verifyQc, Bool.and_assoc]

theorem computes_checkedVote {v : Vote S} (hep : v.epoch = e.cfg.epoch)
    (hset : ∀ set, (e.voteSet v).add v (e.voteMsg v.round v.block) = some set → v.signer < e.cfg.validators.len →
      set.signers.Nodup) :
    Computes (e.checkedVote v) (e.InRange H (.vote v)) (e.checks H (.vote v)) := by
  have hquorum : Computes (match (e.voteSet v).add v (e.voteMsg v.round v.block) with
      | some set => e.cfg.validators.checkedQuorum (e.cfg.validators.weightOf set.signers)
      | none => some false)
      (∀ set ∈ (e.voteSet v).add v (e.voteMsg v.round v.block), e.cfg.validators.Weighs set.signers)
      (match (e.voteSet v).add v (e.voteMsg v.round v.block) with
      | some set => e.cfg.validators.isQuorum (e.cfg.validators.weightOf set.signers)
      | none => false) := by
    cases (e.voteSet v).add v (e.voteMsg v.round v.block) with
    | none => exact (Computes.pure false).congr (by simp) rfl
    | some set => exact (e.cfg.validators.computes_checkedQuorum _).congr (by simp) rfl
  refine ((Computes.sum 64 v.round 1 fun r => e.isMe (e.leader r)).both ((Computes.pure _).both
    ((Computes.sum 64 v.round 2 (decide <| e.round ≤ ·)).both hquorum))).congr ?_ ?_
  · simp only [InRange, hep, true_and, Bool.and_eq_true, beq_iff_eq, decide_eq_true_eq]
    refine and_congr_right fun _ => imp_congr_right fun _ => imp_congr_right fun hlt => and_iff_left fun _ set hadd => ?_
    exact ValidatorSet.weighs_of_nodup ht (hset set hadd hlt)
  · simp only [checks, takesVote, Bool.and_assoc]

end

end Engine

namespace Watcher

def top : Nat := 2 ^ 64 - 1

/-- Messages nobody signed, with one field at the top of its range. -/
def highVote : Message MockScheme := .vote ⟨0, top, 1, 1, 0, (0, .vote 7 0 1 1)⟩

def highTimeout : Message MockScheme := .timeout ⟨0, top, qc 1 1 1, 0, (0, .vote 7 0 1 1), none⟩

def highProposal : Message MockScheme :=
  .proposal ⟨0, ⟨2, 1, 2, 2⟩, qc 1 1 top, none, 0, [], (0, .vote 7 0 1 1)⟩

end Watcher

end Boltchain.Consensus
