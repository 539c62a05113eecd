import Boltchain.Contracts.Books
import Boltchain.Lib.TimedLog

namespace Boltchain.Contracts

open Boltchain.Consensus (Bytes)
open Lib Lib.TimedLog

namespace Staking

def maturedStake (σ : Staking) (epoch id minAge : Nat) : Option Nat := matured epoch (σ.validators id) minAge

abbrev Deposits := Nat → List (Nat × Nat)

def Deposits.add (log : Deposits) (id epoch amount : Nat) : Deposits := Function.update log id ((epoch, amount) :: log id)

/-- The storage after calls in epochs that do not go back, with the deposits made and the ids created at genesis. -/
inductive History (keccak256 : Bytes → Nat) (bls : BlsLib) : Staking → Nat → Deposits → List Nat → Prop where
  | genesis : History keccak256 bls genesis 0 (fun _ => []) []
  | advance {σ : Staking} {epoch epoch' : Nat} {log : Deposits} {g : List Nat} : History keccak256 bls σ epoch log g →
      epoch ≤ epoch' → History keccak256 bls σ epoch' log g
  | registerGenesis {σ σ' : Staking} {epoch stake : Nat} {log : Deposits} {g : List Nat} {pubkey : Bytes}
      {owner feeRecipient : Address} : History keccak256 bls σ epoch log g →
      σ.registerGenesis keccak256 epoch pubkey owner feeRecipient stake = some σ' →
      History keccak256 bls σ' epoch (log.add (σ.count + 1) epoch stake) ((σ.count + 1) :: g)
  | register {σ σ' : Staking} {epoch value : Nat} {log : Deposits} {g : List Nat} {pubkey pubkeyPoint pop : Bytes}
      {sender feeRecipient : Address} : History keccak256 bls σ epoch log g →
      σ.register keccak256 bls epoch sender value pubkey pubkeyPoint pop feeRecipient = some σ' →
      History keccak256 bls σ' epoch (log.add (σ.count + 1) epoch value) g
  | deposit {σ σ' : Staking} {epoch id value : Nat} {log : Deposits} {g : List Nat} :
      History keccak256 bls σ epoch log g → σ.deposit epoch id value = some σ' →
      History keccak256 bls σ' epoch (log.add id epoch value) g
  | requestExit {σ σ' : Staking} {epoch id : Nat} {log : Deposits} {g : List Nat} {sender : Address} :
      History keccak256 bls σ epoch log g → σ.requestExit epoch sender id = some σ' → History keccak256 bls σ' epoch log g
  | withdraw {σ σ' : Staking} {epoch id amount : Nat} {log : Deposits} {g : List Nat} {sender : Address} :
      History keccak256 bls σ epoch log g → σ.withdraw epoch sender id = some (σ', amount) →
      History keccak256 bls σ' epoch log g
  | setFeeRecipient {σ σ' : Staking} {epoch id : Nat} {log : Deposits} {g : List Nat} {sender feeRecipient : Address} :
      History keccak256 bls σ epoch log g → σ.setFeeRecipient sender id feeRecipient = some σ' →
      History keccak256 bls σ' epoch log g
  | slash {σ σ' : Staking} {epoch id bps : Nat} {log : Deposits} {g : List Nat} {p : Penalty} :
      History keccak256 bls σ epoch log g → σ.slash epoch id bps = some (σ', p) → History keccak256 bls σ' epoch log g
  | penalize {σ σ' : Staking} {epoch id bps : Nat} {log : Deposits} {g : List Nat} {p : Penalty} :
      History keccak256 bls σ epoch log g → σ.penalize id bps = some (σ', p) → History keccak256 bls σ' epoch log g
  | lock {σ σ' : Staking} {epoch amount : Nat} {log : Deposits} {g : List Nat} :
      History keccak256 bls σ epoch log g → σ.lock amount = some σ' → History keccak256 bls σ' epoch log g

/-- A validator against its deposits: what is not in the bucket of recent ones was deposited a whole unbonding period
before the last deposit. -/
structure Aged (v : Validator) (deposits : List (Nat × Nat)) (epoch : Nat) : Prop where
  started : v.recentEpoch ≤ epoch
  past : ∀ d ∈ deposits, d.1 ≤ v.recentEpoch
  part : v.recent ≤ v.stake
  whole : v.stake ≤ sumWhere (fun _ => True) deposits
  old : v.stake - v.recent ≤ sumWhere (· + Sys.UNBONDING_EPOCHS ≤ v.recentEpoch) deposits

section Records

variable {v v' : Validator} {deposits : List (Nat × Nat)} {epoch epoch' amount : Nat}

theorem Aged.advance (h : Aged v deposits epoch) (hle : epoch ≤ epoch') : Aged v deposits epoch' :=
  ⟨h.started.trans hle, h.past, h.part, h.whole, h.old⟩

theorem Aged.cut (h : Aged v deposits epoch) (hstake : v'.stake ≤ v.stake) (hrecent : v'.recent = min v.recent v'.stake)
    (hepoch : v'.recentEpoch = v.recentEpoch) : Aged v' deposits epoch := by
  refine ⟨hepoch ▸ h.started, hepoch ▸ h.past, by omega, hstake.trans h.whole, ?_⟩
  rw [hepoch]
  have hold := h.old
  omega

theorem Aged.created (hstake : v.stake = amount % 2 ^ 128) (hrecent : v.recent = amount % 2 ^ 128)
    (hepoch : v.recentEpoch = epoch) : Aged v [(epoch, amount)] epoch := by
  refine ⟨hepoch.le, ?_, (hrecent.trans hstake.symm).le, ?_, ?_⟩
  · intro d hd
    rw [List.mem_singleton.1 hd, hepoch]
  · rw [hstake, sumWhere_cons, if_pos trivial]
    exact (Nat.mod_le _ _).trans (Nat.le_add_right _ _)
  · rw [hstake, hrecent, Nat.sub_self]
    exact Nat.zero_le _

/-- A deposit restarts the bucket once it has matured, and the clock in any case. -/
theorem Aged.deposit (h : Aged v deposits epoch) (hstake : v'.stake = v.stake + amount % 2 ^ 128)
    (hrecent : v'.recent = (if v.recentEpoch + Sys.UNBONDING_EPOCHS ≤ epoch then 0 else v.recent) + amount % 2 ^ 128)
    (hepoch : v'.recentEpoch = epoch) : Aged v' ((epoch, amount) :: deposits) epoch := by
  have hpart := h.part
  have hmod := Nat.mod_le amount (2 ^ 128)
  refine ⟨hepoch.le, ?_, ?_, ?_, ?_⟩
  · intro d hd
    rw [hepoch]
    cases hd with
    | head => exact Nat.le_refl _
    | tail _ hd => exact (h.past d hd).trans h.started
  · split at hrecent <;> omega
  · have hwhole := h.whole
    rw [hstake, sumWhere_cons, if_pos trivial]
    omega
  · rw [hepoch]
    refine Nat.le_trans ?_ sumWhere_le_cons
    split at hrecent
    case isTrue hmatured =>
      have hall : sumWhere (fun _ => True) deposits ≤ sumWhere (· + Sys.UNBONDING_EPOCHS ≤ epoch) deposits := by
        apply sumWhere_mono
        intro d hd _
        have := h.past d hd
        omega
      have hwhole := h.whole
      omega
    case isFalse =>
      have hlater : sumWhere (· + Sys.UNBONDING_EPOCHS ≤ v.recentEpoch) deposits ≤
          sumWhere (· + Sys.UNBONDING_EPOCHS ≤ epoch) deposits := by
        apply sumWhere_mono
        intro d _ hd
        exact hd.trans h.started
      have hold := h.old
      omega

variable {minAge : Nat}

theorem Aged.matured_le {m : Nat} (h : Aged v deposits epoch) (hage : minAge ≤ Sys.UNBONDING_EPOCHS)
    (hm : matured epoch v minAge = some m) : m ≤ v.stake ∧ m ≤ sumWhere (· + minAge ≤ epoch) deposits := by
  have hall : v.recentEpoch + minAge ≤ epoch →
      sumWhere (fun _ => True) deposits ≤ sumWhere (· + minAge ≤ epoch) deposits := by
    intro hle
    apply sumWhere_mono
    intro d hd _
    have := h.past d hd
    omega
  have hstarted := h.started
  unfold matured at hm
  split at hm
  case isTrue hzero =>
    cases hm
    exact ⟨Nat.le_refl _, h.whole.trans (hall (by omega))⟩
  case isFalse =>
    simp only [bind, Option.bind_eq_some_iff, Checked.add_eq_some] at hm
    obtain ⟨first, ⟨-, rfl⟩, hm⟩ := hm
    split at hm
    case isTrue hle =>
      cases hm
      exact ⟨Nat.le_refl _, h.whole.trans (hall hle)⟩
    case isFalse =>
      obtain ⟨-, rfl⟩ := Checked.sub_eq_some.1 hm
      refine ⟨Nat.sub_le _ _, h.old.trans ?_⟩
      apply sumWhere_mono
      intro d _ hd
      omega

theorem Aged.matured_isSome (h : Aged v deposits epoch) (hfits : epoch + minAge < 2 ^ 64) :
    (matured epoch v minAge).isSome = true := by
  have hstarted := h.started
  unfold matured
  split
  · rfl
  · rw [Checked.add_of_lt (show v.recentEpoch + minAge < 2 ^ 64 by omega)]
    simp only [Option.bind_eq_bind, Option.bind_some]
    split
    · rfl
    · rw [Checked.sub_of_le h.part]
      rfl

end Records

section Calls

variable {σ σ' : Staking} {epoch id : Nat}

variable {amount : Nat}

theorem cut_clips {v v' : Validator} (h : Staking.cut v amount = some v') :
    v'.stake ≤ v.stake ∧ v'.recent = min v.recent v'.stake ∧ v'.recentEpoch = v.recentEpoch := by
  simp only [Staking.cut, bind, Option.bind_eq_some_iff, Checked.sub_eq_some] at h
  obtain ⟨stake, ⟨-, rfl⟩, h⟩ := h
  cases h
  exact ⟨Nat.sub_le _ _, rfl, rfl⟩

theorem deactivate_eq {stake : Nat} (h : σ.deactivate id stake = some σ') :
    σ'.validators = σ.validators ∧ σ'.count = σ.count := by
  simp only [deactivate, bind, Option.bind_eq_some_iff] at h
  obtain ⟨last, -, pos, -, -, -, total, -, h⟩ := h
  cases h
  exact ⟨rfl, rfl⟩

theorem lock_keeps (h : σ.lock amount = some σ') :
    σ'.validators = σ.validators ∧ σ'.count = σ.count := by
  simp only [lock, bind, Option.bind_eq_some_iff] at h
  obtain ⟨dead, -, h⟩ := h
  cases h
  exact ⟨rfl, rfl⟩

/-- A call that cuts one validator's stake, or leaves it, and changes no other. -/
structure Cuts (σ σ' : Staking) (id : Nat) (v : Validator) : Prop where
  validators : σ'.validators = Function.update σ.validators id v
  count : σ'.count = σ.count
  registered : (σ.validators id).status ≠ .none
  stake : v.stake ≤ (σ.validators id).stake
  recent : v.recent = min (σ.validators id).recent v.stake
  epoch : v.recentEpoch = (σ.validators id).recentEpoch

variable {bps : Nat} {p : Penalty}

theorem slash_cuts (h : σ.slash epoch id bps = some (σ', p)) : ∃ v, Cuts σ σ' id v := by
  simp only [slash, bind, Option.bind_eq_some_iff] at h
  obtain ⟨_, hstatus, q, -, σ₁, h₁, v, hv, σ₂, h₂, h⟩ := h
  have hstatus := Checked.require_eq_some.1 hstatus
  cases h
  obtain ⟨hstake, hrecent, hepoch⟩ := cut_clips hv
  obtain ⟨hval, hcount⟩ := lock_keeps h₂
  have hsame : σ₁.validators = σ.validators ∧ σ₁.count = σ.count := by
    split at h₁
    · exact deactivate_eq h₁
    · cases h₁
      exact ⟨rfl, rfl⟩
  refine ⟨{ v with status := .slashed, exitEpoch := epoch }, ?_, hcount.trans hsame.2, ?_, hstake, hrecent, hepoch⟩
  · rw [hval, set, hsame.1]
  · obtain hs | hs := hstatus <;> simp [hs]

theorem penalize_cuts (h : σ.penalize id bps = some (σ', p)) : ∃ v, Cuts σ σ' id v := by
  simp only [penalize, bind, Option.bind_eq_some_iff] at h
  obtain ⟨_, hstatus, q, -, v, hv, total, -, σ₂, h₂, h⟩ := h
  have hstatus := Checked.require_eq_some.1 hstatus
  cases h
  obtain ⟨hstake, hrecent, hepoch⟩ := cut_clips hv
  obtain ⟨hval, hcount⟩ := lock_keeps h₂
  refine ⟨v, hval, hcount, ?_, hstake, hrecent, hepoch⟩
  obtain hs | hs := hstatus <;> simp [hs]

end Calls

/-- Every validator that was not created at genesis is aged as its deposits say, and ids not given yet have none. -/
structure Recorded (σ : Staking) (epoch : Nat) (log : Deposits) (g : List Nat) : Prop where
  aged : ∀ id ∉ g, Aged (σ.validators id) (log id) epoch
  fresh : ∀ id, σ.count < id → log id = [] ∧ (σ.validators id).status = .none

section Runs

variable {σ σ' : Staking} {epoch : Nat} {log : Deposits} {g : List Nat}

theorem Recorded.advance {epoch' : Nat} (h : Recorded σ epoch log g) (hle : epoch ≤ epoch') : Recorded σ epoch' log g :=
  ⟨fun id hid => (h.aged id hid).advance hle, h.fresh⟩

theorem Recorded.of_same (h : Recorded σ epoch log g) (hval : σ'.validators = σ.validators)
    (hcount : σ'.count = σ.count) : Recorded σ' epoch log g := by
  refine ⟨?_, ?_⟩
  · rw [hval]
    exact h.aged
  · rw [hval, hcount]
    exact h.fresh

variable {id : Nat}

theorem Recorded.registered (h : Recorded σ epoch log g) (hs : (σ.validators id).status ≠ .none) :
    id ≤ σ.count := by
  by_contra hnot
  exact hs (h.fresh id (Nat.lt_of_not_le hnot)).2

variable {v : Validator}

theorem Recorded.cut (h : Recorded σ epoch log g) (hcut : Cuts σ σ' id v) :
    Recorded σ' epoch log g := by
  refine ⟨fun j hj => ?_, fun j hj => ?_⟩
  · rw [hcut.validators]
    by_cases heq : j = id
    · subst heq
      rw [Function.update_self]
      exact (h.aged j hj).cut hcut.stake hcut.recent hcut.epoch
    · rw [Function.update_of_ne heq]
      exact h.aged j hj
  · rw [hcut.count] at hj
    have hid := h.registered hcut.registered
    rw [hcut.validators, Function.update_of_ne (by omega)]
    exact h.fresh j hj

variable {amount : Nat}

theorem Recorded.add {g' : List Nat} (h : Recorded σ epoch log g)
    (hval : σ'.validators = Function.update σ.validators id v) (hcount : σ.count ≤ σ'.count) (hid : id ≤ σ'.count)
    (hg : ∀ j ∉ g', j ∉ g) (hv : id ∉ g' → Aged v ((epoch, amount) :: log id) epoch) :
    Recorded σ' epoch (log.add id epoch amount) g' := by
  refine ⟨fun j hj => ?_, fun j hj => ?_⟩
  · rw [hval, Deposits.add]
    by_cases heq : j = id
    · subst heq
      rw [Function.update_self, Function.update_self]
      exact hv hj
    · rw [Function.update_of_ne heq, Function.update_of_ne heq]
      exact h.aged j (hg j hj)
  · rw [hval, Deposits.add, Function.update_of_ne (by omega), Function.update_of_ne (by omega)]
    exact h.fresh j (by omega)

variable {feeRecipient owner : Address} {keccak256 : Bytes → Nat} {pubkey : Bytes} {stake : Nat}

theorem create_record
    (hc : σ.create keccak256 epoch pubkey owner feeRecipient stake = some (σ', id)) :
    id = σ.count + 1 ∧ σ'.count = id ∧ ∃ v, σ'.validators = Function.update σ.validators id v ∧
      v.stake = stake % 2 ^ 128 ∧ v.recent = stake % 2 ^ 128 ∧ v.recentEpoch = epoch := by
  simp only [create, bind, Option.bind_eq_some_iff, Checked.add_eq_some] at hc
  obtain ⟨-, -, -, -, n, ⟨-, rfl⟩, hc⟩ := hc
  cases hc
  exact ⟨rfl, rfl, _, rfl, rfl, rfl, rfl⟩

variable {bls : BlsLib} {sender : Address} {value : Nat}

theorem Recorded.register {pubkeyPoint pop : Bytes} (h : Recorded σ epoch log g)
    (hr : σ.register keccak256 bls epoch sender value pubkey pubkeyPoint pop feeRecipient = some σ') :
    Recorded σ' epoch (log.add (σ.count + 1) epoch value) g := by
  simp only [Staking.register, bind, Option.bind_eq_some_iff] at hr
  obtain ⟨-, -, -, -, -, -, ⟨σ₁, id⟩, hc, hr⟩ := hr
  obtain ⟨rfl, hcount, v, hval, hstake, hrecent, hepoch⟩ := create_record hc
  obtain rfl := raiseActive_spec hr
  refine h.add hval (by simp only; omega) hcount.ge (fun _ hj => hj) fun _ => ?_
  rw [(h.fresh _ (Nat.lt_succ_self _)).1]
  exact .created hstake hrecent hepoch

theorem Recorded.registerGenesis
    (h : Recorded σ epoch log g) (hr : σ.registerGenesis keccak256 epoch pubkey owner feeRecipient stake = some σ') :
    Recorded σ' epoch (log.add (σ.count + 1) epoch stake) ((σ.count + 1) :: g) := by
  obtain ⟨⟨σ₁, id⟩, hc, hr⟩ := Option.bind_eq_some_iff.1 hr
  obtain ⟨rfl, hcount, v, hval, -⟩ := create_record hc
  obtain rfl := raiseActive_spec hr
  have hset : (σ₁.set (σ.count + 1) { σ₁.validators (σ.count + 1) with recent := 0 }).validators =
      Function.update σ.validators (σ.count + 1) { σ₁.validators (σ.count + 1) with recent := 0 } := by
    rw [set, hval, Function.update_idem]
  refine h.add hset (by simp only [set]; omega) hcount.ge (fun _ hj => fun hmem => hj (List.mem_cons_of_mem _ hmem)) ?_
  intro hnot
  exact absurd List.mem_cons_self hnot

theorem Recorded.deposit (h : Recorded σ epoch log g) (hd : σ.deposit epoch id value = some σ') :
    Recorded σ' epoch (log.add id epoch value) g := by
  simp only [Staking.deposit, addRecent, bind, Option.bind_eq_some_iff, Checked.add_eq_some] at hd
  obtain ⟨_, hactive, v, ⟨_, ⟨-, rfl⟩, recent, ⟨-, hrecent⟩, hv⟩, stake, ⟨-, rfl⟩, hr⟩ := hd
  cases hv
  obtain rfl := raiseActive_spec hr
  have hid : id ≤ σ.count := by
    apply h.registered
    rw [Checked.require_eq_some.1 hactive]
    exact Status.noConfusion
  exact h.add rfl (Nat.le_refl _) hid (fun _ hj => hj) fun hnot => (h.aged id hnot).deposit rfl hrecent.symm rfl

theorem Recorded.of_update (h : Recorded σ epoch log g)
    (hval : σ'.validators = Function.update σ.validators id v) (hcount : σ'.count = σ.count)
    (hstatus : (σ.validators id).status = .none → v.status = .none) (hstake : v.stake = (σ.validators id).stake)
    (hrecent : v.recent = (σ.validators id).recent) (hepoch : v.recentEpoch = (σ.validators id).recentEpoch) :
    Recorded σ' epoch log g := by
  refine ⟨fun j hj => ?_, fun j hj => ?_⟩
  · rw [hval]
    by_cases heq : j = id
    · subst heq
      have hold := h.aged j hj
      rw [Function.update_self]
      exact hold.cut hstake.le (by rw [hrecent, hstake, Nat.min_eq_left hold.part]) hepoch
    · rw [Function.update_of_ne heq]
      exact h.aged j hj
  · rw [hcount] at hj
    rw [hval]
    by_cases heq : j = id
    · subst heq
      rw [Function.update_self]
      exact ⟨(h.fresh j hj).1, hstatus (h.fresh j hj).2⟩
    · rw [Function.update_of_ne heq]
      exact h.fresh j hj

theorem Recorded.requestExit (h : Recorded σ epoch log g)
    (hr : σ.requestExit epoch sender id = some σ') : Recorded σ' epoch log g := by
  simp only [Staking.requestExit, bind, Option.bind_eq_some_iff] at hr
  obtain ⟨_, -, _, hactive, hr⟩ := hr
  obtain ⟨hval, hcount⟩ := deactivate_eq hr
  refine h.of_update hval hcount (fun hnone => ?_) rfl rfl rfl
  rw [Checked.require_eq_some.1 hactive] at hnone
  cases hnone

theorem Recorded.setFeeRecipient (h : Recorded σ epoch log g)
    (hr : σ.setFeeRecipient sender id feeRecipient = some σ') : Recorded σ' epoch log g := by
  simp only [Staking.setFeeRecipient, bind, Option.bind_eq_some_iff] at hr
  obtain ⟨_, -, hr⟩ := hr
  cases hr
  exact h.of_update rfl rfl (fun hnone => hnone) rfl rfl rfl

theorem withdraw_cuts (h : σ.withdraw epoch sender id = some (σ', amount)) :
    ∃ v, Cuts σ σ' id v := by
  simp only [withdraw, bind, Option.bind_eq_some_iff] at h
  obtain ⟨_, -, _, hstatus, next, -, free, -, -, -, h⟩ := h
  cases h
  refine ⟨_, rfl, rfl, ?_, Nat.zero_le _, (Nat.min_zero _).symm, rfl⟩
  obtain hs | hs := Checked.require_eq_some.1 hstatus <;> simp [hs]

theorem History.recorded (h : History keccak256 bls σ epoch log g) :
    Recorded σ epoch log g := by
  induction h with
  | genesis =>
    refine ⟨fun id _ => ⟨Nat.le_refl _, fun d hd => (by cases hd), Nat.le_refl _, Nat.le_refl _, Nat.le_refl _⟩, ?_⟩
    exact fun id _ => ⟨rfl, rfl⟩
  | advance _ hle ih => exact ih.advance hle
  | registerGenesis _ hr ih => exact ih.registerGenesis hr
  | register _ hr ih => exact ih.register hr
  | deposit _ hd ih => exact ih.deposit hd
  | requestExit _ hr ih => exact ih.requestExit hr
  | withdraw _ hw ih =>
    obtain ⟨v, hv⟩ := withdraw_cuts hw
    exact ih.cut hv
  | setFeeRecipient _ hf ih => exact ih.setFeeRecipient hf
  | slash _ hs ih =>
    obtain ⟨v, hv⟩ := slash_cuts hs
    exact ih.cut hv
  | penalize _ hp ih =>
    obtain ⟨v, hv⟩ := penalize_cuts hp
    exact ih.cut hv
  | lock _ hl ih =>
    obtain ⟨hval, hcount⟩ := lock_keeps hl
    exact ih.of_same hval hcount

/-- Matured stake is never over-counted: for a validator that was not created at genesis it is at most its stake, and at
most what was deposited for it at least `minAge` epochs ago. -/
theorem matured_never_overcounted {keccak256 : Bytes → Nat} {bls : BlsLib} (h : History keccak256 bls σ epoch log g)
    {id minAge : Nat} (hid : id ∉ g) (hage : minAge ≤ Sys.UNBONDING_EPOCHS) :
    (∀ m, σ.maturedStake epoch id minAge = some m →
      m ≤ (σ.validators id).stake ∧ m ≤ sumWhere (· + minAge ≤ epoch) (log id)) ∧
    (epoch + minAge < 2 ^ 64 → (σ.maturedStake epoch id minAge).isSome = true) := by
  have haged := h.recorded.aged id hid
  exact ⟨fun m hm => haged.matured_le hage hm, fun hfits => haged.matured_isSome hfits⟩

end Runs

def freeBls : BlsLib := ⟨fun b => b, fun _ _ _ => true, fun _ _ _ => true⟩

/-- A validator that registers with 64 BOLT and deposits 10 wei more five epochs later: nothing has matured. -/
theorem matured_never_overcounted_deposit : ∃ σ log, History (fun _ => 0) freeBls σ 5 log [] ∧
    σ.maturedStake 5 1 14 = some 0 ∧ 0 ≤ sumWhere (· + 14 ≤ 5) (log 1) := by
  have hrun : ((genesis.register (fun _ => 0) freeBls 0 0 Sys.MIN_STAKE (List.replicate 48 0) (List.replicate 48 0) []
      0).bind fun σ => σ.deposit 5 1 10).map (·.maturedStake 5 1 14) = some (some 0) := by decide +kernel
  obtain ⟨σ₂, hboth, hzero⟩ := Option.map_eq_some_iff.1 hrun
  obtain ⟨σ₁, h₁, h₂⟩ := Option.bind_eq_some_iff.1 hboth
  have hregistered : History (fun _ => 0) freeBls σ₁ 0 _ [] := .register .genesis h₁
  have hhistory := History.deposit (hregistered.advance (Nat.zero_le 5)) h₂
  exact ⟨σ₂, _, hhistory, hzero,
    ((matured_never_overcounted hhistory (List.not_mem_nil) (by decide)).1 0 hzero).2⟩

end Staking

end Boltchain.Contracts
