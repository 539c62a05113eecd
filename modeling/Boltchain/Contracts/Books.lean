import Boltchain.Contracts.Bonded
import Boltchain.Lib.Ledger

namespace Boltchain.Contracts

open Boltchain.Consensus (Bytes)
open Lib
open Lib.Ledger (sumOf sumOf_of_leave sumOf_update_of_mem sumOf_update_of_notMem)

namespace Staking

def activeStake (σ : Staking) : Nat := sumOf (fun id => (σ.validators id).stake) σ.active

def stakes (σ : Staking) : Nat := ∑ id ∈ Finset.range (σ.count + 1), (σ.validators id).stake

def held (σ : Staking) : Nat := σ.stakes + σ.deadStake

/-- The storage is consistent: the list of active validators and its index are right, the total is
the sum of their stakes, and the unmatured part of a stake is a part of it. -/
structure Sound (σ : Staking) : Prop where
  listed : σ.Listed
  cleared : ∀ id, id ∉ σ.active → σ.activePos id = 0
  total : σ.totalActiveStake = σ.activeStake
  recent : ∀ id, (σ.validators id).recent ≤ (σ.validators id).stake
  width : ∀ id, (σ.validators id).stake < 2 ^ 128
  unused : ∀ id, (σ.validators id).status = .none → (σ.validators id).stake = 0

variable {σ σ' : Staking} {epoch id value : Nat} {v : Validator}

theorem Sound.genesis : Staking.genesis.Sound where
  listed := .genesis
  cleared _ _ := rfl
  total := rfl
  recent _ := Nat.le_refl 0
  width _ := by simp [Staking.genesis, Validator.empty]
  unused _ _ := rfl

theorem Sound.le_count (h : σ.Sound) (hs : (σ.validators id).status ≠ .none) : id ≤ σ.count :=
  (h.listed.registered id hs).2

section Records

theorem stakes_update (h : id ≤ σ.count) (hcount : σ'.count = σ.count)
    (hv : σ'.validators = Function.update σ.validators id v) :
    σ'.stakes + (σ.validators id).stake = σ.stakes + v.stake := by
  have hmem : id ∈ Finset.range (σ.count + 1) := Finset.mem_range.2 (Nat.lt_succ_of_le h)
  have hsplit : ∀ g : Nat → Validator, ∑ j ∈ Finset.range (σ.count + 1), (g j).stake =
      (g id).stake + ∑ j ∈ (Finset.range (σ.count + 1)).erase id, (g j).stake :=
    fun g => (Finset.add_sum_erase _ (fun j => (g j).stake) hmem).symm
  have hrest : ∑ j ∈ (Finset.range (σ.count + 1)).erase id, (Function.update σ.validators id v j).stake =
      ∑ j ∈ (Finset.range (σ.count + 1)).erase id, (σ.validators j).stake :=
    Finset.sum_congr rfl fun j hj => by rw [Function.update_of_ne (Finset.ne_of_mem_erase hj)]
  rw [stakes, stakes, hcount, hv, hsplit, hsplit σ.validators, hrest, Function.update_self]
  omega

theorem forall_update {P : Validator → Prop} (hv : σ'.validators = Function.update σ.validators id v)
    (hold : ∀ j, P (σ.validators j)) (hnew : P v) (j : Nat) : P (σ'.validators j) := by
  rw [hv]
  by_cases hj : j = id
  · rw [hj, Function.update_self]
    exact hnew
  · rw [Function.update_of_ne hj]
    exact hold j

theorem Sound.of_update (h : σ.Sound) (hl : σ'.Listed) (hv : σ'.validators = Function.update σ.validators id v)
    (hcleared : ∀ j, j ∉ σ'.active → σ'.activePos j = 0) (htotal : σ'.totalActiveStake = σ'.activeStake)
    (hs : v.status ≠ .none) (hrecent : v.recent ≤ v.stake) (hwidth : v.stake < 2 ^ 128) : σ'.Sound where
  listed := hl
  cleared := hcleared
  total := htotal
  recent := forall_update (P := fun v => v.recent ≤ v.stake) hv h.recent hrecent
  width := forall_update (P := fun v => v.stake < 2 ^ 128) hv h.width hwidth
  unused := forall_update (P := fun v => v.status = .none → v.stake = 0) hv h.unused fun hnone => absurd hnone hs

theorem Sound.of_stay (h : σ.Sound) (hreg : (σ.validators id).status ≠ .none) (hl : σ'.Listed)
    (hactive : σ'.active = σ.active) (hpos : σ'.activePos = σ.activePos) (hcount : σ'.count = σ.count)
    (hv : σ'.validators = Function.update σ.validators id v)
    (htotal : if (σ.validators id).status = .active
      then σ'.totalActiveStake + (σ.validators id).stake = σ.totalActiveStake + v.stake
      else σ'.totalActiveStake = σ.totalActiveStake)
    (hs : v.status ≠ .none) (hrecent : v.recent ≤ v.stake) (hwidth : v.stake < 2 ^ 128) :
    σ'.Sound ∧ σ'.stakes + (σ.validators id).stake = σ.stakes + v.stake := by
  refine ⟨h.of_update hl hv ?_ ?_ hs hrecent hwidth, stakes_update (h.le_count hreg) hcount hv⟩
  · rw [hactive, hpos]
    exact h.cleared
  · have hold := h.total
    rw [activeStake] at hold
    rw [activeStake, hactive, hv]
    by_cases hact : (σ.validators id).status = .active
    · rw [if_pos hact] at htotal
      have hsum := sumOf_update_of_mem (g := Validator.stake) (f := σ.validators) (v := v) h.listed.indexed.nodup
        ((h.listed.active id).2 hact)
      omega
    · have hid : id ∉ σ.active := fun hmem => hact ((h.listed.active id).1 hmem)
      rw [if_neg hact] at htotal
      rw [sumOf_update_of_notMem hid, htotal, hold]

theorem Sound.of_leave (h : σ.Sound) (hl : σ'.Listed) (hact : (σ.validators id).status = .active)
    (hmem : ∀ j, j ∈ σ'.active ↔ j ∈ σ.active ∧ j ≠ id) (hcount : σ'.count = σ.count)
    (hv : σ'.validators = Function.update σ.validators id v) (hcleared : ∀ j, j ∉ σ'.active → σ'.activePos j = 0)
    (htotal : σ'.totalActiveStake + (σ.validators id).stake = σ.totalActiveStake)
    (hs : v.status ≠ .none) (hrecent : v.recent ≤ v.stake) (hwidth : v.stake < 2 ^ 128) :
    σ'.Sound ∧ σ'.stakes + (σ.validators id).stake = σ.stakes + v.stake := by
  refine ⟨h.of_update hl hv hcleared ?_ hs hrecent hwidth, stakes_update (h.le_count (by simp [hact])) hcount hv⟩
  have hid : id ∉ σ'.active := fun hid => ((hmem id).1 hid).2 rfl
  have hsum := sumOf_of_leave (fun j => (σ.validators j).stake) h.listed.indexed.nodup hl.indexed.nodup
    ((h.listed.active id).2 hact) hmem
  have hold := h.total
  rw [activeStake] at hold
  rw [activeStake, hv, sumOf_update_of_notMem hid]
  omega

theorem Sound.of_same (h : σ.Sound) (hactive : σ'.active = σ.active) (hpos : σ'.activePos = σ.activePos)
    (hcount : σ'.count = σ.count) (htotal : σ'.totalActiveStake = σ.totalActiveStake)
    (hv : ∀ j, (σ'.validators j).stake = (σ.validators j).stake ∧ (σ'.validators j).recent = (σ.validators j).recent ∧
      (σ'.validators j).status = (σ.validators j).status) : σ'.Sound ∧ σ'.stakes = σ.stakes := by
  have hstake : ∀ j, (σ'.validators j).stake = (σ.validators j).stake := fun j => (hv j).1
  refine ⟨⟨h.listed.of_status hactive hpos hcount fun j => (hv j).2.2, ?_, ?_, fun j => ?_, fun j => ?_, fun j => ?_⟩, ?_⟩
  · rw [hactive, hpos]
    exact h.cleared
  · rw [htotal, h.total, activeStake, activeStake, hactive]
    exact congrArg (sumOf · σ.active) (funext fun j => (hstake j).symm)
  · rw [hstake, (hv j).2.1]
    exact h.recent j
  · rw [hstake]
    exact h.width j
  · rw [hstake, (hv j).2.2]
    exact h.unused j
  · rw [stakes, stakes, hcount]
    exact Finset.sum_congr rfl fun j _ => hstake j

end Records

section Enter

theorem Sound.of_enter (h : σ.Sound) (hl : σ'.Listed) (hcount : σ'.count = σ.count + 1)
    (hactive : σ'.active = σ.active ++ [σ.count + 1]) (hv : σ'.validators = Function.update σ.validators (σ.count + 1) v)
    (hcleared : ∀ j, j ∉ σ'.active → σ'.activePos j = 0) (htotal : σ'.totalActiveStake = σ.totalActiveStake + v.stake)
    (hs : v.status ≠ .none) (hrecent : v.recent ≤ v.stake) (hwidth : v.stake < 2 ^ 128) :
    σ'.Sound ∧ σ'.stakes = σ.stakes + v.stake := by
  have hnew : σ.count + 1 ∉ σ.active := by
    intro hmem
    have hact := (h.listed.active _).1 hmem
    have : σ.count + 1 ≤ σ.count := h.le_count (by simp [hact])
    omega
  refine ⟨h.of_update hl hv hcleared ?_ hs hrecent hwidth, ?_⟩
  · rw [activeStake, hactive, hv, Ledger.sumOf_append, sumOf_update_of_notMem hnew, Ledger.sumOf_singleton,
      Function.update_self, htotal, h.total, activeStake]
  · rw [stakes, stakes, hcount, Finset.sum_range_succ, hv, Function.update_self]
    refine congrArg (· + v.stake) (Finset.sum_congr rfl fun j hj => ?_)
    have hj := Finset.mem_range.1 hj
    rw [Function.update_of_ne (by omega)]

variable {keccak256 : Bytes → Nat} {pubkey : Bytes} {owner feeRecipient : Address} {stake : Nat}

theorem create_eq (hc : σ.create keccak256 epoch pubkey owner feeRecipient stake = some (σ', id)) :
    id = σ.count + 1 ∧ σ'.count = id ∧ σ'.active = σ.active ++ [id] ∧ (∀ j, j ≠ id → σ'.activePos j = σ.activePos j) ∧
      σ'.totalActiveStake = σ.totalActiveStake ∧ σ'.deadStake = σ.deadStake ∧
      ∃ v, σ'.validators = Function.update σ.validators id v ∧ v.stake = stake % 2 ^ 128 ∧ v.recent = stake % 2 ^ 128 ∧
        v.status = .active := by
  simp only [create, bind, Option.bind_eq_some_iff, Checked.require_eq_some, Checked.add_eq_some, exists_const] at hc
  obtain ⟨-, -, n, ⟨-, rfl⟩, hc⟩ := hc
  cases hc
  exact ⟨rfl, rfl, rfl, fun j hj => Function.update_of_ne hj _ _, rfl, rfl, _, rfl, rfl, rfl, rfl⟩

theorem raiseActive_spec (h : σ.raiseActive value = some σ') :
    σ' = { σ with totalActiveStake := σ.totalActiveStake + value } := by
  simp only [raiseActive, bind, Option.bind_eq_some_iff, Checked.add_eq_some] at h
  obtain ⟨t, ⟨-, rfl⟩, h⟩ := h
  exact (Option.some_inj.1 h).symm

theorem Sound.cleared_of_push (h : σ.Sound) (hactive : σ'.active = σ.active ++ [id])
    (hpos : ∀ j, j ≠ id → σ'.activePos j = σ.activePos j) : ∀ j, j ∉ σ'.active → σ'.activePos j = 0 := by
  intro j hj
  rw [hactive, List.mem_append, List.mem_singleton, not_or] at hj
  rw [hpos j hj.2]
  exact h.cleared j hj.1

theorem Sound.register {bls : BlsLib} {sender : Address} {pubkeyPoint pop : Bytes} (h : σ.Sound) (hvalue : value < 2 ^ 128)
    (hr : σ.register keccak256 bls epoch sender value pubkey pubkeyPoint pop feeRecipient = some σ') :
    σ'.Sound ∧ σ'.held = σ.held + value := by
  have hl := (register_steps h.listed hr).listed
  simp only [Staking.register, bind, Option.bind_eq_some_iff, Checked.require_eq_some, exists_const] at hr
  obtain ⟨-, -, -, ⟨σ₁, id⟩, hc, hr⟩ := hr
  obtain ⟨rfl, hcount, hactive, hpos, htotal, hdead, v, hv, hstake, hrecent, hs⟩ := create_eq hc
  rw [Nat.mod_eq_of_lt hvalue] at hstake hrecent
  obtain rfl := raiseActive_spec hr
  obtain ⟨hsound, hstakes⟩ := h.of_enter hl hcount hactive hv (h.cleared_of_push hactive hpos)
    (by rw [hstake, ← htotal]) (by simp [hs]) (by rw [hrecent, hstake]) (hstake ▸ hvalue)
  refine ⟨hsound, ?_⟩
  rw [held, held, hstakes, hstake]
  simp only [hdead]
  omega

theorem Sound.registerGenesis (h : σ.Sound) (hstake : stake < 2 ^ 128)
    (hr : σ.registerGenesis keccak256 epoch pubkey owner feeRecipient stake = some σ') :
    σ'.Sound ∧ σ'.held = σ.held + stake := by
  have hl := (registerGenesis_spec h.listed hr).1.listed
  obtain ⟨⟨σ₁, id⟩, hc, hr⟩ := Option.bind_eq_some_iff.1 hr
  obtain ⟨rfl, hcount, hactive, hpos, htotal, hdead, v, hv, hvs, hrecent, hs⟩ := create_eq hc
  rw [Nat.mod_eq_of_lt hstake] at hvs
  obtain rfl := raiseActive_spec hr
  have hrec : σ₁.validators (σ.count + 1) = v := by rw [hv, Function.update_self]
  have hset : (σ₁.set (σ.count + 1) { v with recent := 0 }).validators =
      Function.update σ.validators (σ.count + 1) { v with recent := 0 } := by
    rw [Staking.set, hv, Function.update_idem]
  simp only [hrec] at hl ⊢
  obtain ⟨hsound, hstakes⟩ := h.of_enter hl hcount hactive hset (h.cleared_of_push hactive hpos)
    (by rw [hvs, ← htotal]; rfl) (by simp [hs]) (Nat.zero_le _) (hvs ▸ hstake)
  refine ⟨hsound, ?_⟩
  rw [held, held, hstakes]
  simp only [Staking.set, hdead, hvs]
  omega

end Enter

section Stay

theorem Sound.deposit (h : σ.Sound) (hvalue : value < 2 ^ 128) (hd : σ.deposit epoch id value = some σ') :
    σ'.Sound ∧ σ'.held = σ.held + value := by
  have hl := (deposit_steps h.listed hd).listed
  simp only [Staking.deposit, addRecent, bind, Option.bind_eq_some_iff, Checked.require_eq_some, Checked.add_eq_some,
    exists_const, Nat.mod_eq_of_lt hvalue] at hd
  obtain ⟨hs, v, ⟨_, -, recent, ⟨-, hrecent⟩, hv⟩, stake, ⟨hlt, rfl⟩, hr⟩ := hd
  cases hv
  obtain rfl := raiseActive_spec hr
  have hne : (σ.validators id).status ≠ .none := by simp [hs]
  have hle : recent ≤ (σ.validators id).stake + value := by
    have := h.recent id
    split at hrecent <;> omega
  obtain ⟨hsound, hstakes⟩ := h.of_stay hne hl rfl rfl rfl rfl (by rw [if_pos hs]; simp only [Staking.set]; omega)
    hne hle hlt
  refine ⟨hsound, ?_⟩
  simp only [held, Staking.set] at hstakes ⊢
  omega

variable {sender : Address}

theorem Sound.setFeeRecipient {feeRecipient : Address} (h : σ.Sound)
    (hf : σ.setFeeRecipient sender id feeRecipient = some σ') : σ'.Sound ∧ σ'.held = σ.held := by
  simp only [Staking.setFeeRecipient, bind, Option.bind_eq_some_iff, Checked.require_eq_some, exists_const] at hf
  obtain ⟨-, hf⟩ := hf
  cases hf
  obtain ⟨hsound, hstakes⟩ : (σ.set id { σ.validators id with feeRecipient }).Sound ∧
      (σ.set id { σ.validators id with feeRecipient }).stakes = σ.stakes := by
    refine h.of_same rfl rfl rfl rfl fun j => ?_
    by_cases hj : j = id
    · subst hj
      simp [set]
    · simp [set, hj]
  exact ⟨hsound, congrArg (· + σ.deadStake) hstakes⟩

variable {amount : Nat}

theorem Sound.lock (h : σ.Sound) (hk : σ.lock amount = some σ') :
    σ'.Sound ∧ σ'.held = σ.held + amount := by
  simp only [Staking.lock, bind, Option.bind_eq_some_iff, Checked.add_eq_some] at hk
  obtain ⟨d, ⟨-, rfl⟩, hk⟩ := hk
  cases hk
  obtain ⟨hsound, -⟩ : Sound { σ with deadStake := σ.deadStake + amount } ∧ σ.stakes = σ.stakes :=
    h.of_same rfl rfl rfl rfl fun _ => ⟨rfl, rfl, rfl⟩
  exact ⟨hsound, (Nat.add_assoc ..).symm⟩

theorem Sound.withdraw (h : σ.Sound)
    (hw : σ.withdraw epoch sender id = some (σ', amount)) : σ'.Sound ∧ σ'.held + amount = σ.held := by
  have hl := (withdraw_steps h.listed hw).listed
  simp only [Staking.withdraw, bind, Option.bind_eq_some_iff, Checked.require_eq_some, Checked.add_eq_some,
    exists_const] at hw
  obtain ⟨-, hs, next, -, free, -, -, hw⟩ := hw
  cases hw
  have hne : (σ.validators id).status ≠ .none := by
    obtain hs | hs := hs <;> simp [hs]
  have hact : (σ.validators id).status ≠ .active := by
    obtain hs | hs := hs <;> simp [hs]
  obtain ⟨hsound, hstakes⟩ := h.of_stay hne hl rfl rfl rfl rfl (by rw [if_neg hact]; rfl) (by simp) le_rfl (by simp)
  refine ⟨hsound, ?_⟩
  simp only [held, Staking.set] at hstakes ⊢
  omega

end Stay

section Cut

variable {bps : Nat} {p : Penalty}

variable {stake : Nat}

theorem penaltyOf_le (hbps : bps ≤ 10000) (h : penaltyOf stake bps = some p) :
    p.amount ≤ stake ∧ p.reward ≤ p.amount := by
  simp only [penaltyOf, bind, Option.bind_eq_some_iff, Checked.mul_eq_some] at h
  obtain ⟨scaled, ⟨-, rfl⟩, h⟩ := h
  cases h
  refine ⟨?_, Nat.div_le_self _ _⟩
  exact Nat.div_le_of_le_mul (by rw [Nat.mul_comm 10000]; exact Nat.mul_le_mul_left stake hbps)

theorem cut_spec {v v' : Validator} {amount : Nat} (hle : amount ≤ v.stake) (hwidth : v.stake < 2 ^ 128)
    (h : cut v amount = some v') : v' = { v with stake := v.stake - amount, recent := min v.recent (v.stake - amount) } := by
  simp only [cut, bind, Option.bind_eq_some_iff, Checked.sub_eq_some, Nat.mod_eq_of_lt (lt_of_le_of_lt hle hwidth)] at h
  obtain ⟨stake, ⟨-, rfl⟩, h⟩ := h
  exact (Option.some_inj.1 h).symm

theorem deactivate_books (h : SwapRemove.Indexed σ.active σ.activePos) (hid : id ∈ σ.active)
    (hcleared : ∀ j, j ∉ σ.active → σ.activePos j = 0) (hd : σ.deactivate id stake = some σ') :
    (∀ j, j ∉ σ'.active → σ'.activePos j = 0) ∧ σ'.totalActiveStake + stake = σ.totalActiveStake ∧
      σ'.deadStake = σ.deadStake := by
  have hmem := (deactivate_spec h hid hd).2.1
  simp only [deactivate, bind, Option.bind_eq_some_iff, Checked.require_eq_some, Checked.sub_eq_some,
    exists_const] at hd
  obtain ⟨last, hlast, pos, ⟨-, rfl⟩, -, total, ⟨hle, rfl⟩, hd⟩ := hd
  cases hd
  refine ⟨fun j hj => ?_, Nat.sub_add_cancel hle, rfl⟩
  rw [hmem, not_and_or, not_not] at hj
  simp only
  by_cases hjid : j = id
  · rw [hjid, Function.update_self]
  · have hja := hj.resolve_right hjid
    have hjl : j ≠ last := fun hjl => hja (hjl ▸ List.mem_of_getLast? hlast)
    rw [Function.update_of_ne hjid, Function.update_of_ne hjl]
    exact hcleared j hja

theorem Sound.requestExit {sender : Address} (h : σ.Sound) (hr : σ.requestExit epoch sender id = some σ') :
    σ'.Sound ∧ σ'.held = σ.held := by
  have hl := (requestExit_steps h.listed hr).listed
  simp only [Staking.requestExit, bind, Option.bind_eq_some_iff, Checked.require_eq_some, exists_const] at hr
  obtain ⟨-, hs, hd⟩ := hr
  have hid := (h.listed.active id).2 hs
  obtain ⟨-, hmem, hcount, hv⟩ := deactivate_spec (σ := σ.set id _) h.listed.indexed hid hd
  obtain ⟨hcleared, htotal, hdead⟩ := deactivate_books (σ := σ.set id _) h.listed.indexed hid h.cleared hd
  obtain ⟨hsound, hstakes⟩ := h.of_leave hl hs hmem hcount hv hcleared htotal (by simp) (h.recent id) (h.width id)
  refine ⟨hsound, ?_⟩
  simp only [held, Staking.set] at hstakes hdead ⊢
  omega

/-- What a penalty leaves of the stake and locks of it, in the books. -/
theorem Sound.slash (h : σ.Sound) (hbps : bps ≤ 10000) (hs : σ.slash epoch id bps = some (σ', p)) :
    σ'.Sound ∧ σ'.held + p.reward = σ.held := by
  have hl := (slash_steps h.listed hs).listed
  simp only [Staking.slash, bind, Option.bind_eq_some_iff, Checked.require_eq_some, exists_const] at hs
  obtain ⟨hstatus, q, hq, σ₁, h₁, v, hv, σ₂, h₂, hs⟩ := hs
  cases hs
  obtain ⟨hamount, hreward⟩ := penaltyOf_le hbps hq
  obtain rfl := cut_spec hamount (h.width id) hv
  have hne : (σ.validators id).status ≠ .none := by
    obtain hs | hs := hstatus <;> simp [hs]
  have hwidth := h.width id
  simp only [Staking.lock, bind, Option.bind_eq_some_iff, Checked.add_eq_some] at h₂
  obtain ⟨d, ⟨-, rfl⟩, h₂⟩ := h₂
  cases h₂
  by_cases hact : (σ.validators id).status = .active
  · rw [if_pos hact] at h₁
    have hid := (h.listed.active id).2 hact
    obtain ⟨-, hmem, hcount, hval⟩ := deactivate_spec h.listed.indexed hid h₁
    obtain ⟨hcleared, htotal, hdead⟩ := deactivate_books h.listed.indexed hid h.cleared h₁
    obtain ⟨hsound, hstakes⟩ := h.of_leave hl hact hmem hcount (congrArg (Function.update · id _) hval) hcleared htotal
      (by simp) (Nat.min_le_right _ _) (by simp only; omega)
    refine ⟨hsound, ?_⟩
    simp only [held, Staking.set, hdead] at hstakes ⊢
    omega
  · rw [if_neg hact] at h₁
    cases h₁
    obtain ⟨hsound, hstakes⟩ := h.of_stay hne hl rfl rfl rfl rfl (by rw [if_neg hact]; rfl) (by simp)
      (Nat.min_le_right _ _) (by simp only; omega)
    refine ⟨hsound, ?_⟩
    simp only [held, Staking.set] at hstakes ⊢
    omega

theorem Sound.penalize (h : σ.Sound) (hbps : bps ≤ 10000) (hp : σ.penalize id bps = some (σ', p)) :
    σ'.Sound ∧ σ'.held + p.reward = σ.held := by
  have hsteps : Steps 0 none σ σ' := penalize_steps h.listed hp
  have hl := hsteps.listed
  simp only [Staking.penalize, bind, Option.bind_eq_some_iff, Checked.require_eq_some, exists_const] at hp
  obtain ⟨hstatus, q, hq, v, hv, total, htotal, σ₁, h₁, hp⟩ := hp
  cases hp
  obtain ⟨hamount, hreward⟩ := penaltyOf_le hbps hq
  obtain rfl := cut_spec hamount (h.width id) hv
  have hne : (σ.validators id).status ≠ .none := by
    obtain hs | hs := hstatus <;> simp [hs]
  have hwidth := h.width id
  simp only [Staking.lock, bind, Option.bind_eq_some_iff, Checked.add_eq_some] at h₁
  obtain ⟨d, ⟨-, rfl⟩, h₁⟩ := h₁
  cases h₁
  have hsum : if (σ.validators id).status = .active
      then total + (σ.validators id).stake = σ.totalActiveStake + ((σ.validators id).stake - p.amount)
      else total = σ.totalActiveStake := by
    by_cases hact : (σ.validators id).status = .active
    · rw [if_pos hact, Checked.sub_eq_some] at htotal
      rw [if_pos hact]
      omega
    · rw [if_neg hact] at htotal
      rw [if_neg hact]
      exact (Option.some_inj.1 htotal).symm
  obtain ⟨hsound, hstakes⟩ := h.of_stay hne hl rfl rfl rfl rfl hsum hne (Nat.min_le_right _ _) (by simp only; omega)
  refine ⟨hsound, ?_⟩
  simp only [held, Staking.set] at hstakes ⊢
  omega

end Cut

end Staking

/-- The balance of the contract in the rest of the state, with a total supply below `2 ^ 128`. -/
structure Books {X : Type} (L : Ledger X) where
  balance : X → Nat
  supply : ∀ x, balance x < 2 ^ 128
  receive : ∀ sender value x x', L.receive sender value x = some x' → balance x' = balance x + value
  pay : ∀ dest amount x x', L.pay dest amount x = some x' → balance x' + amount = balance x
  burnSupply : ∀ amount x, balance (L.burnSupply amount x) = balance x

/-- The books are exact: the storage is consistent, and the contract holds all stakes and what is locked. -/
structure StakeWorld.Exact {X : Type} {L : Ledger X} (B : Books L) (w : StakeWorld X) : Prop where
  sound : w.staking.Sound
  backed : w.staking.held ≤ B.balance w.rest

/-- What may happen in the system: a call of the contract, or anything else, after which the rest of the state is `x`. -/
def systemEntry {X : Type} (L : Ledger X) (keccak256 : Bytes → Nat) (bls : BlsLib) (chainid : Nat) :
    StakeOp ⊕ X → StakeCall X Unit
  | .inl op => stakeEntry L keccak256 bls chainid op
  | .inr x => Lib.Reentry.Call.update fun w => some { w with rest := x }

/-- `SwarmStorage` asks for at most the whole stake, and nothing but calls of the contract lowers its balance. -/
def Books.Allows {X : Type} {L : Ledger X} (B : Books L) : StakeOp ⊕ X → StakeWorld X → Prop
  | .inl (.penalize _ bps _), _ => bps ≤ 10000
  | .inl _, _ => True
  | .inr x, w => B.balance w.rest ≤ B.balance x

section Calls

open Lib.Reentry (Call Code)

variable {X : Type} {L : Ledger X} {B : Books L} {w : StakeWorld X} {refuses : Address → Prop}

variable {amount : Nat} {dest : Address}

theorem StakeWorld.Exact.of_pay {sent : StakeWorld X} (hs : w.staking.Sound)
    (hb : w.staking.held + amount ≤ B.balance w.rest)
    (h : (L.pay dest amount w.rest).map (fun rest => { w with rest }) = some sent) : sent.Exact B := by
  obtain ⟨rest, hrest, rfl⟩ := Option.map_eq_some_iff.1 h
  have := B.pay _ _ _ _ hrest
  exact ⟨hs, by simp only; omega⟩

theorem transfer_exact (hs : w.staking.Sound)
    (hb : w.staking.held + amount ≤ B.balance w.rest) : (transfer L dest amount w).Keeps refuses (·.Exact B) := by
  rw [transfer, Code.Keeps, Call.ends_bind, trySend]
  have hfalse : ((Call.require (false = true) : StakeCall X Unit) w).Ends refuses (·.Exact B) (fun _ w => w.Exact B)
      fun _ w => w.Exact B := by
    rw [Call.ends_require]
    exact fun h => absurd h Bool.false_ne_true
  refine Call.ends_send (fun sent hsent => ⟨.of_pay hs hb hsent, fun w' hw' => ?_⟩) (fun _ => hfalse) fun _ => hfalse
  rw [Call.ends_require]
  exact fun _ => hw'

variable {reporter : Address} {reward : Nat}

theorem payReward_exact (hs : w.staking.Sound)
    (hb : w.staking.held + reward ≤ B.balance w.rest) : (payReward L reporter reward w).Keeps refuses (·.Exact B) := by
  unfold payReward
  split
  · exact transfer_exact hs hb
  · exact ⟨hs, by omega⟩

theorem payOrLock_exact (hs : w.staking.Sound)
    (hb : w.staking.held + reward ≤ B.balance w.rest) : (payOrLock L reporter reward w).Keeps refuses (·.Exact B) := by
  unfold payOrLock
  split
  · rw [Code.Keeps, Call.ends_bind, trySend]
    have hlock : ((Call.update fun w => (w.staking.lock reward).map fun staking => { w with staking } :
        StakeCall X Unit) w).Ends refuses (·.Exact B) (fun _ w => w.Exact B) fun _ w => w.Exact B := by
      rw [Call.ends_update]
      intro w' hw'
      obtain ⟨σ, hσ, rfl⟩ := Option.map_eq_some_iff.1 hw'
      obtain ⟨hsound, hheld⟩ := hs.lock hσ
      exact ⟨hsound, by simp only; omega⟩
    exact Call.ends_send (fun sent hsent => ⟨.of_pay hs hb hsent, fun w' hw' => hw'⟩) (fun _ => hlock) fun _ => hlock
  · exact ⟨hs, by omega⟩

variable {f : Staking → Nat → Option Staking} {sender : Address}

theorem receive_exact {value : Nat} (h : w.Exact B)
    (hf : value < 2 ^ 128 → ∀ σ', f w.staking w.registry.currentEpoch = some σ' →
      σ'.Sound ∧ σ'.held = w.staking.held + value) :
    ((do receive L sender value; onStaking f : StakeCall X Unit) w).Keeps refuses (·.Exact B) := by
  simp only [Code.Keeps, Call.ends_bind, receive, onStaking, Call.ends_update]
  intro w₁ hw₁ w₂ hw₂
  obtain ⟨rest, hrest, rfl⟩ := Option.map_eq_some_iff.1 hw₁
  obtain ⟨σ', hσ', rfl⟩ := Option.map_eq_some_iff.1 hw₂
  have hvalue := B.receive _ _ _ _ hrest
  have hsupply := B.supply rest
  obtain ⟨hsound, hheld⟩ := hf (by omega) σ' hσ'
  have := h.backed
  exact ⟨hsound, by simp only; omega⟩

theorem onStaking_exact (h : w.Exact B)
    (hf : ∀ σ', f w.staking w.registry.currentEpoch = some σ' → σ'.Sound ∧ σ'.held = w.staking.held) :
    (onStaking f w).Keeps refuses (·.Exact B) := by
  rw [onStaking, Code.Keeps, Call.ends_update]
  intro w' hw'
  obtain ⟨σ', hσ', rfl⟩ := Option.map_eq_some_iff.1 hw'
  obtain ⟨hsound, hheld⟩ := hf σ' hσ'
  exact ⟨hsound, hheld ▸ h.backed⟩

variable {id : Nat}

theorem withdraw_exact (h : w.Exact B) :
    (withdraw L sender id w).Keeps refuses (·.Exact B) := by
  simp only [withdraw, Call.ends_bind, Call.ends_get, Call.ends_lift, Call.ends_set]
  rintro ⟨σ', amount⟩ hσ'
  obtain ⟨hsound, hheld⟩ := h.sound.withdraw hσ'
  exact transfer_exact hsound (hheld.le.trans h.backed)

variable {keccak256 : Bytes → Nat} {bls : BlsLib} {chainid : Nat}

variable {bps : Nat}

theorem Registry.slashBps_le {r : Registry} {total : Nat} (h : r.slashBps total = some bps) : bps ≤ 10000 := by
  unfold slashBps at h
  split at h
  · exact (Option.some_inj.1 h).symm.le
  · simp only [bind, Option.bind_eq_some_iff] at h
    obtain ⟨_, -, _, -, _, -, _, -, h⟩ := h
    exact (Option.some_inj.1 h) ▸ Nat.min_le_right _ _

theorem submitEvidence_exact {pubkeyPoint msgA sigA msgB sigB : Bytes} (h : w.Exact B) :
    (submitEvidence L keccak256 bls chainid sender id pubkeyPoint msgA sigA msgB sigB w).Keeps refuses (·.Exact B) := by
  simp only [submitEvidence, Call.ends_bind, Call.ends_get, Call.ends_lift, Call.ends_set]
  rintro key - bps hbps ⟨σ', p⟩ hσ'
  obtain ⟨hsound, hheld⟩ := h.sound.slash (Registry.slashBps_le hbps) hσ'
  have hback := h.backed
  rw [← B.burnSupply (p.amount - p.reward), ← hheld] at hback
  refine (payReward_exact hsound hback).mono fun _ w' hw' => ?_
  rw [Call.ends_update]
  intro w'' hw''
  obtain ⟨r', -, rfl⟩ := Option.map_eq_some_iff.1 hw''
  exact ⟨hw'.sound, hw'.backed⟩

theorem penalize_exact (h : w.Exact B) (hbps : bps ≤ 10000) :
    (penalize L id bps reporter w).Keeps refuses (·.Exact B) := by
  simp only [penalize, Call.ends_bind, Call.ends_get, Call.ends_lift, Call.ends_set]
  rintro ⟨σ', p⟩ hσ'
  obtain ⟨hsound, hheld⟩ := h.sound.penalize hbps hσ'
  have hback := h.backed
  rw [← B.burnSupply (p.amount - p.reward), ← hheld] at hback
  exact payOrLock_exact hsound hback

theorem systemEntry_exact (op : StakeOp ⊕ X) (h : w.Exact B) (hok : B.Allows op w) :
    (systemEntry L keccak256 bls chainid op w).Keeps refuses (·.Exact B) := by
  rcases op with op | x
  · rw [systemEntry]
    cases op with
    | register sender value pubkey pubkeyPoint pop feeRecipient =>
      exact receive_exact h fun hvalue σ' hσ' => h.sound.register hvalue hσ'
    | deposit sender id value => exact receive_exact h fun hvalue σ' hσ' => h.sound.deposit hvalue hσ'
    | requestExit sender id =>
      rw [stakeEntry]
      exact onStaking_exact h fun σ' hσ' => h.sound.requestExit hσ'
    | withdraw sender id => exact withdraw_exact h
    | setFeeRecipient sender id feeRecipient =>
      rw [stakeEntry]
      exact onStaking_exact h fun σ' hσ' => h.sound.setFeeRecipient hσ'
    | submitEvidence sender id pubkeyPoint msgA sigA msgB sigB => exact submitEvidence_exact h
    | penalize id bps reporter => exact penalize_exact h hok
  · rw [systemEntry, Code.Keeps, Call.ends_update]
    intro w' hw'
    cases hw'
    exact ⟨h.sound, h.backed.trans hok⟩

variable {validators : List StakeWorld.DevValidator}

theorem genesisStaking_sound {σ : Staking}
    (hstake : ∀ v ∈ validators, v.stake < 2 ^ 128) (h : StakeWorld.genesisStaking keccak256 validators = some σ) :
    σ.Sound ∧ σ.held = sumOf (·.stake) validators := by
  induction validators using List.reverseRecOn generalizing σ with
  | nil =>
    cases h
    exact ⟨.genesis, by simp [Staking.held, Staking.stakes, Staking.genesis, Validator.empty]⟩
  | append_singleton validators v ih =>
    simp only [StakeWorld.genesisStaking, List.foldlM_append, List.foldlM_cons, List.foldlM_nil, Option.bind_eq_bind,
      Option.bind_eq_some_iff, Option.pure_def] at h
    obtain ⟨σ₀, h₀, σ₁, h₁, hσ⟩ := h
    cases hσ
    obtain ⟨hsound, hheld⟩ := ih (fun u hu => hstake u (List.mem_append_left _ hu)) h₀
    obtain ⟨hsound', hheld'⟩ := hsound.registerGenesis (hstake v (by simp)) h₁
    exact ⟨hsound', by rw [hheld', hheld, Ledger.sumOf_append, Ledger.sumOf_singleton]⟩

theorem StakeWorld.Exact.genesis {rest : X}
    (hfunded : sumOf (·.stake) validators ≤ B.balance rest)
    (h : StakeWorld.genesis keccak256 validators rest = some w) : w.Exact B := by
  obtain ⟨σ, hσ, h⟩ := Option.bind_eq_some_iff.1 h
  cases h
  have hstake : ∀ v ∈ validators, v.stake < 2 ^ 128 := by
    intro v hv
    have hle : v.stake ≤ sumOf (·.stake) validators :=
      List.single_le_sum (fun _ _ => Nat.zero_le _) _ (List.mem_map_of_mem hv)
    exact lt_of_le_of_lt (hle.trans hfunded) (B.supply rest)
  obtain ⟨hsound, hheld⟩ := genesisStaking_sound hstake hσ
  exact ⟨hsound, hheld.le.trans hfunded⟩

/-- Over every run from genesis, with accounts that call back when they are paid: the active validators are listed once
each with an exact index, their stakes add up to the total, the unmatured part of each stake is at most the stake, and
the balance covers all stakes and what is locked. -/
theorem staking_books_exact {X : Type} (L : Ledger X) (B : Books L) (keccak256 : Bytes → Nat) (bls : BlsLib) (chainid : Nat)
    (rules : EpochRules) (refuses : Address → Prop) (validators : List StakeWorld.DevValidator) (rest : X)
    (w₀ w : StakeWorld X) (hfunded : sumOf (·.stake) validators ≤ B.balance rest)
    (hgenesis : StakeWorld.genesis keccak256 validators rest = some w₀)
    (hrun : Lib.Reentry.Run refuses (systemEntry L keccak256 bls chainid) B.Allows B.Allows
      (fun w w' => w.Starts keccak256 rules w') w₀ w) :
    (∀ id, id ∈ w.staking.active ↔ (w.staking.validators id).status = .active) ∧ w.staking.active.Nodup ∧
      (∀ k id, w.staking.active[k]? = some id ↔ w.staking.activePos id = k + 1) ∧
      w.staking.totalActiveStake = (w.staking.active.map fun id => (w.staking.validators id).stake).sum ∧
      (∀ id, (w.staking.validators id).recent ≤ (w.staking.validators id).stake) ∧
      (∑ id ∈ Finset.range (w.staking.count + 1), (w.staking.validators id).stake) + w.staking.deadStake ≤
        B.balance w.rest ∧
      ∀ id, w.staking.count < id → (w.staking.validators id).stake = 0 := by
  have hw : w.Exact B := by
    refine hrun.invariant (fun op w hw hok => systemEntry_exact op hw hok) (fun w w' hw ht => ?_)
      (StakeWorld.Exact.genesis hfunded hgenesis)
    obtain ⟨i, r, -, -, rfl⟩ := ht
    exact ⟨hw.sound, hw.backed⟩
  have hs := hw.sound
  refine ⟨hs.listed.active, hs.listed.indexed.nodup, fun k id => ⟨hs.listed.indexed k id, fun hpos => ?_⟩, hs.total,
    hs.recent, hw.backed, fun id hid => hs.unused id ?_⟩
  · -- a position is given to listed validators only
    have hmem : id ∈ w.staking.active := by
      by_contra hnot
      rw [hs.cleared id hnot] at hpos
      cases hpos
    have hat := (hs.listed.indexed.getElem?_of_mem hmem).2
    rwa [hpos] at hat
  · by_contra hne
    exact Nat.not_le.2 hid (hs.le_count hne)

end Calls

section Mock

open Lib.Reentry (Run Finishes)

def Ledger.balanceOnly : Ledger (Fin (2 ^ 128)) where
  receive _ value x := if h : x.val + value < 2 ^ 128 then some ⟨x.val + value, h⟩ else .none
  pay _ amount x := if amount ≤ x.val then some ⟨x.val - amount, lt_of_le_of_lt (Nat.sub_le _ _) x.isLt⟩ else .none
  burnSupply _ x := x

def mockBooks : Books Ledger.balanceOnly where
  balance x := x.val
  supply x := x.isLt
  receive := by
    intro _ value x x' h
    rw [Ledger.balanceOnly, Option.dite_none_right_eq_some] at h
    obtain ⟨hlt, h⟩ := h
    cases h
    rfl
  pay := by
    intro _ amount x x' h
    rw [Ledger.balanceOnly, Option.ite_none_right_eq_some] at h
    obtain ⟨hle, h⟩ := h
    cases h
    exact Nat.sub_add_cancel hle
  burnSupply _ _ := rfl

/-- Two validators at genesis, one of which leaves: the other one's stake is the total. -/
theorem staking_books_exact_exit :
    ∃ w : StakeWorld (Fin (2 ^ 128)), (w.staking.validators 1).status = .exiting ∧
      w.staking.totalActiveStake = (w.staking.active.map fun id => (w.staking.validators id).stake).sum := by
  have hrun : (StakeWorld.genesis firstByte mockValidators (Fin.ofNat (2 ^ 128) (128 * 10 ^ 18))).any (fun w =>
      (w.staking.requestExit w.registry.currentEpoch 7 1).any fun σ => (σ.validators 1).status = .exiting) = true := by
    decide +kernel
  obtain ⟨w₀, h₀, hexit⟩ := (Option.any_eq_true ..).1 hrun
  obtain ⟨σ, hσ, hstatus⟩ := (Option.any_eq_true ..).1 hexit
  have hcode : systemEntry .balanceOnly firstByte mockBls 8017 (.inl (.requestExit 7 1)) w₀ =
      .ret { w₀ with staking := σ } () := by
    simp only [systemEntry, stakeEntry, onStaking, Lib.Reentry.Call.update, hσ, Option.map_some, Option.elim_some]
  have hcall : Run (fun _ => True) (systemEntry .balanceOnly firstByte mockBls 8017) mockBooks.Allows mockBooks.Allows
      (fun w w' => w.Starts firstByte mockRules w') w₀ { w₀ with staking := σ } := by
    refine .call (.inl (.requestExit 7 1)) (.refl w₀) trivial ?_
    rw [hcode]
    exact .ret _
  exact ⟨_, of_decide_eq_true hstatus, (staking_books_exact .balanceOnly mockBooks firstByte mockBls 8017 mockRules
    (fun _ => True) mockValidators _ w₀ _ (by decide +kernel) h₀ hcall).2.2.2.1⟩

end Mock

end Boltchain.Contracts
