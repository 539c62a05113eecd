import Boltchain.Contracts.Slashing

namespace Boltchain.Contracts

open Boltchain.Consensus (Bytes)
open Lib

/-- What one call in `epoch` can do to a validator; to leave the active ones it has to be `chosen`. -/
inductive Moves (epoch : Nat) (chosen : Prop) (v v' : Validator) : Prop
  | stays (status : v'.status = v.status) (exitEpoch : v'.exitEpoch = v.exitEpoch)
  | enters (before : v.status = .none) (after : v'.status = .active)
  | leaves (before : v.status = .active) (after : v'.status = .exiting ∨ v'.status = .slashed)
      (exitEpoch : v'.exitEpoch = epoch) (chosen : chosen)
  | slashed (before : v.status = .exiting) (after : v'.status = .slashed) (exitEpoch : v'.exitEpoch = epoch)
  | withdraws (before : v.status = .exiting ∨ v.status = .slashed) (after : v'.status = .withdrawn)
      (free : v.exitEpoch + 15 ≤ epoch)

theorem Moves.of_stays {epoch : Nat} {chosen : Prop} {v v' v'' : Validator} (h : Moves epoch chosen v v')
    (hs : v''.status = v'.status) (he : v''.exitEpoch = v'.exitEpoch) : Moves epoch chosen v v'' := by
  cases h with
  | stays hst hex => exact .stays (hs.trans hst) (he.trans hex)
  | enters hb ha => exact .enters hb (hs.trans ha)
  | leaves hb ha hex hc => exact .leaves hb (hs ▸ ha) (he.trans hex) hc
  | slashed hb ha hex => exact .slashed hb (hs.trans ha) (he.trans hex)
  | withdraws hb ha hf => exact .withdraws hb (hs.trans ha) hf

structure Staking.Listed (σ : Staking) : Prop where
  indexed : SwapRemove.Indexed σ.active σ.activePos
  active : ∀ id, id ∈ σ.active ↔ (σ.validators id).status = .active
  registered : ∀ id, (σ.validators id).status ≠ .none → 1 ≤ id ∧ id ≤ σ.count
  count : σ.count < 2 ^ 32

/-- What one call does to the validators; only `leaver` may leave the active ones. -/
structure Staking.Steps (epoch : Nat) (leaver : Option Nat) (σ σ' : Staking) : Prop where
  listed : σ'.Listed
  moves : ∀ id, Moves epoch (leaver = some id) (σ.validators id) (σ'.validators id)

namespace Staking

variable {σ σ' : Staking} {epoch id value : Nat} {leaver : Option Nat}

theorem Listed.genesis : Staking.genesis.Listed where
  indexed := nofun
  active := fun id => by simp [Staking.genesis, Validator.empty]
  registered := fun id h => absurd rfl h
  count := by decide

theorem Listed.length_le (h : σ.Listed) : σ.active.length ≤ σ.count := by
  have hsub : σ.active.toFinset ⊆ Finset.Icc 1 σ.count := by
    intro id hid
    have hs := (h.active id).1 (List.mem_toFinset.1 hid)
    have := h.registered id (by simp [hs])
    exact Finset.mem_Icc.2 this
  have := Finset.card_le_card hsub
  rw [List.toFinset_card_of_nodup h.indexed.nodup, Nat.card_Icc] at this
  omega

theorem Listed.of_status (h : σ.Listed) (hactive : σ'.active = σ.active) (hpos : σ'.activePos = σ.activePos)
    (hcount : σ'.count = σ.count) (hs : ∀ id, (σ'.validators id).status = (σ.validators id).status) : σ'.Listed where
  indexed := by
    rw [hactive, hpos]
    exact h.indexed
  active := fun id => by
    rw [hactive, hs]
    exact h.active id
  registered := fun id hid => by
    rw [hs] at hid
    rw [hcount]
    exact h.registered id hid
  count := hcount ▸ h.count

theorem Steps.of_set (h : σ.Listed) {v : Validator} (hactive : σ'.active = σ.active)
    (hpos : σ'.activePos = σ.activePos) (hcount : σ'.count = σ.count)
    (hv : σ'.validators = Function.update σ.validators id v) (hs : v.status = (σ.validators id).status)
    (he : v.exitEpoch = (σ.validators id).exitEpoch) : Steps epoch leaver σ σ' := by
  have hall : ∀ j, (σ'.validators j).status = (σ.validators j).status ∧
      (σ'.validators j).exitEpoch = (σ.validators j).exitEpoch := by
    intro j
    rw [hv]
    by_cases hj : j = id
    · subst hj
      rw [Function.update_self]
      exact ⟨hs, he⟩
    · rw [Function.update_of_ne hj]
      exact ⟨rfl, rfl⟩
  exact ⟨h.of_status hactive hpos hcount fun j => (hall j).1, fun j => .stays (hall j).1 (hall j).2⟩

section Create

variable {keccak256 : Bytes → Nat} {pubkey : Bytes} {owner feeRecipient : Address} {stake : Nat}

theorem create_spec (h : σ.Listed) (hc : σ.create keccak256 epoch pubkey owner feeRecipient stake = some (σ', id)) :
    Steps epoch none σ σ' ∧ id = σ.count + 1 ∧ σ'.count = id ∧ (σ'.validators id).status = .active := by
  simp only [create, bind, Option.bind_eq_some_iff, Checked.require_eq_some, Checked.add_eq_some, exists_const] at hc
  obtain ⟨-, -, n, ⟨hlt, rfl⟩, hc⟩ := hc
  cases hc
  have hnone : (σ.validators (σ.count + 1)).status = .none := by
    by_contra hne
    have := (h.registered _ hne).2
    omega
  have hnew : σ.count + 1 ∉ σ.active := by
    rw [h.active, hnone]
    simp
  have hlen := h.length_le
  refine ⟨⟨⟨?_, fun j => ?_, fun j hj => ?_, hlt⟩, fun j => ?_⟩, rfl, rfl, by simp⟩
  · have hmod : (σ.active ++ [σ.count + 1]).length % 2 ^ 32 = σ.active.length + 1 := by
      rw [List.length_append, List.length_singleton]
      exact Nat.mod_eq_of_lt (by omega)
    simp only [hmod]
    exact h.indexed.push hnew
  · by_cases hj : j = σ.count + 1
    · subst hj
      simp
    · simp [hj, h.active]
  · by_cases hjn : j = σ.count + 1
    · subst hjn
      exact ⟨Nat.succ_pos _, le_rfl⟩
    · simp only [Function.update_of_ne hjn] at hj
      have := h.registered j hj
      exact ⟨this.1, Nat.le_succ_of_le this.2⟩
  · by_cases hj : j = σ.count + 1
    · subst hj
      exact .enters hnone (by simp)
    · exact .stays (by simp [hj]) (by simp [hj])

theorem raiseActive_eq (h : σ.raiseActive value = some σ') : ∃ t, σ' = { σ with totalActiveStake := t } := by
  obtain ⟨t, -, h⟩ := Option.bind_eq_some_iff.1 h
  exact ⟨t, (Option.some_inj.1 h).symm⟩

theorem Steps.raiseActive {σ'' : Staking} (h : Steps epoch leaver σ σ') (hr : σ'.raiseActive value = some σ'') :
    Steps epoch leaver σ σ'' := by
  obtain ⟨t, rfl⟩ := raiseActive_eq hr
  exact ⟨h.listed.of_status rfl rfl rfl fun _ => rfl, h.moves⟩

theorem Steps.set {v : Validator} (h : Steps epoch leaver σ σ') (hs : v.status = (σ'.validators id).status)
    (he : v.exitEpoch = (σ'.validators id).exitEpoch) : Steps epoch leaver σ (σ'.set id v) := by
  have hset : Steps epoch none σ' (σ'.set id v) := Steps.of_set h.listed rfl rfl rfl rfl hs he
  refine ⟨hset.listed, fun j => ?_⟩
  by_cases hj : j = id
  · subst hj
    exact (h.moves j).of_stays (by simp [Staking.set, hs]) (by simp [Staking.set, he])
  · exact (h.moves j).of_stays (by simp [Staking.set, hj]) (by simp [Staking.set, hj])

theorem registerGenesis_spec (h : σ.Listed)
    (hr : σ.registerGenesis keccak256 epoch pubkey owner feeRecipient stake = some σ') :
    Steps epoch none σ σ' ∧ σ'.count = σ.count + 1 ∧ (σ'.validators (σ.count + 1)).status = .active := by
  obtain ⟨⟨σ₁, id⟩, hc, hr⟩ := Option.bind_eq_some_iff.1 hr
  obtain ⟨hsteps, rfl, hcount, hstatus⟩ := create_spec h hc
  obtain ⟨t, rfl⟩ := raiseActive_eq hr
  have hset := hsteps.set (v := { σ₁.validators (σ.count + 1) with recent := 0 }) rfl rfl
  refine ⟨⟨hset.listed.of_status rfl rfl rfl fun _ => rfl, hset.moves⟩, hcount, ?_⟩
  simpa [Staking.set] using hstatus

theorem register_steps {bls : BlsLib} {sender : Address} {pubkeyPoint pop : Bytes} (h : σ.Listed)
    (hr : σ.register keccak256 bls epoch sender value pubkey pubkeyPoint pop feeRecipient = some σ') :
    Steps epoch none σ σ' := by
  simp only [register, bind, Option.bind_eq_some_iff, Checked.require_eq_some, exists_const] at hr
  obtain ⟨-, -, -, ⟨σ₁, id⟩, hc, hr⟩ := hr
  exact (create_spec h hc).1.raiseActive hr

end Create

theorem deposit_steps (h : σ.Listed) (hd : σ.deposit epoch id value = some σ') : Steps epoch none σ σ' := by
  simp only [deposit, addRecent, bind, Option.bind_eq_some_iff, Checked.require_eq_some, Checked.add_eq_some,
    exists_const] at hd
  obtain ⟨-, v, ⟨_, -, _, -, hv⟩, stake, -, hr⟩ := hd
  cases hv
  obtain ⟨t, rfl⟩ := raiseActive_eq hr
  exact Steps.of_set h rfl rfl rfl rfl rfl rfl

theorem setFeeRecipient_steps {sender feeRecipient : Address} (h : σ.Listed)
    (hf : σ.setFeeRecipient sender id feeRecipient = some σ') : Steps epoch none σ σ' := by
  simp only [setFeeRecipient, bind, Option.bind_eq_some_iff, Checked.require_eq_some, exists_const] at hf
  obtain ⟨-, hf⟩ := hf
  cases hf
  exact Steps.of_set h rfl rfl rfl rfl rfl rfl

section Leave

variable {v : Validator}

theorem Steps.of_leave (h : σ.Listed) (hid : (σ.validators id).status = .active)
    (hpos : SwapRemove.Indexed σ'.active σ'.activePos) (hmem : ∀ j, j ∈ σ'.active ↔ j ∈ σ.active ∧ j ≠ id)
    (hcount : σ'.count = σ.count) (hv : σ'.validators = Function.update σ.validators id v)
    (hs : v.status = .exiting ∨ v.status = .slashed) (he : v.exitEpoch = epoch) : Steps epoch (some id) σ σ' := by
  have hself : σ'.validators id = v := by rw [hv, Function.update_self]
  have hother : ∀ j, j ≠ id → σ'.validators j = σ.validators j := by
    intro j hj
    rw [hv, Function.update_of_ne hj]
  refine ⟨⟨hpos, fun j => ?_, fun j hj => ?_, hcount ▸ h.count⟩, fun j => ?_⟩
  · rw [hmem]
    by_cases hj : j = id
    · subst hj
      rw [hself]
      obtain hs | hs := hs <;> simp [hs]
    · rw [hother j hj, ← h.active]
      exact and_iff_left hj
  · rw [hcount]
    by_cases hjid : j = id
    · subst hjid
      exact h.registered j (by simp [hid])
    · rw [hother j hjid] at hj
      exact h.registered j hj
  · by_cases hj : j = id
    · subst hj
      rw [hself]
      exact .leaves hid hs he rfl
    · rw [hother j hj]
      exact .stays rfl rfl

theorem deactivate_spec {stake : Nat} (h : SwapRemove.Indexed σ.active σ.activePos) (hid : id ∈ σ.active)
    (hd : σ.deactivate id stake = some σ') :
    SwapRemove.Indexed σ'.active σ'.activePos ∧ (∀ j, j ∈ σ'.active ↔ j ∈ σ.active ∧ j ≠ id) ∧
      σ'.count = σ.count ∧ σ'.validators = σ.validators := by
  simp only [deactivate, bind, Option.bind_eq_some_iff, Checked.require_eq_some, Checked.sub_eq_some,
    exists_const] at hd
  obtain ⟨last, hlast, pos, ⟨-, rfl⟩, -, total, -, hd⟩ := hd
  cases hd
  exact ⟨h.remove hid hlast, h.mem_remove hid hlast, rfl, rfl⟩

variable {sender : Address}

theorem requestExit_steps (h : σ.Listed) (hr : σ.requestExit epoch sender id = some σ') :
    Steps epoch (some id) σ σ' := by
  simp only [requestExit, bind, Option.bind_eq_some_iff, Checked.require_eq_some, exists_const] at hr
  obtain ⟨-, hs, hd⟩ := hr
  obtain ⟨hpos, hmem, hcount, hv⟩ := deactivate_spec (σ := σ.set id _) h.indexed ((h.active id).2 hs) hd
  exact Steps.of_leave h hs hpos hmem hcount hv (.inl rfl) rfl

variable {amount : Nat}

theorem cut_eq {v' : Validator} (h : cut v amount = some v') :
    ∃ stake recent, v' = { v with stake, recent } := by
  obtain ⟨stake, -, h⟩ := Option.bind_eq_some_iff.1 h
  exact ⟨stake, _, (Option.some_inj.1 h).symm⟩

theorem lock_eq (h : σ.lock amount = some σ') : ∃ d, σ' = { σ with deadStake := d } := by
  obtain ⟨d, -, h⟩ := Option.bind_eq_some_iff.1 h
  exact ⟨d, (Option.some_inj.1 h).symm⟩

variable {bps : Nat} {p : Penalty}

theorem slash_steps (h : σ.Listed) (hs : σ.slash epoch id bps = some (σ', p)) :
    Steps epoch (some id) σ σ' := by
  simp only [slash, bind, Option.bind_eq_some_iff, Checked.require_eq_some, exists_const] at hs
  obtain ⟨hstatus, q, -, σ₁, h₁, v, hv, σ₂, h₂, hs⟩ := hs
  cases hs
  obtain ⟨stake, recent, rfl⟩ := cut_eq hv
  obtain ⟨d, rfl⟩ := lock_eq h₂
  by_cases hact : (σ.validators id).status = .active
  · rw [if_pos hact] at h₁
    obtain ⟨hpos, hmem, hcount, hval⟩ := deactivate_spec h.indexed ((h.active id).2 hact) h₁
    exact Steps.of_leave h hact hpos hmem hcount (congrArg (Function.update · id _) hval) (.inr rfl) rfl
  · rw [if_neg hact] at h₁
    cases h₁
    have hex := hstatus.resolve_left hact
    refine ⟨⟨h.indexed, fun j => ?_, fun j hj => ?_, h.count⟩, fun j => ?_⟩
    · by_cases hj : j = id
      · subst hj
        simp [set, h.active, hex]
      · simp [set, hj, h.active]
    · by_cases hjid : j = id
      · subst hjid
        exact h.registered j (by simp [hex])
      · simp only [set, Function.update_of_ne hjid] at hj
        exact h.registered j hj
    · by_cases hj : j = id
      · subst hj
        exact .slashed hex (by simp [set]) (by simp [set])
      · exact .stays (by simp [set, hj]) (by simp [set, hj])

theorem penalize_steps (h : σ.Listed) (hp : σ.penalize id bps = some (σ', p)) :
    Steps epoch none σ σ' := by
  simp only [penalize, bind, Option.bind_eq_some_iff, Checked.require_eq_some, exists_const] at hp
  obtain ⟨-, q, -, v, hv, total, -, σ₁, h₁, hp⟩ := hp
  cases hp
  obtain ⟨stake, recent, rfl⟩ := cut_eq hv
  obtain ⟨d, rfl⟩ := lock_eq h₁
  exact Steps.of_set h rfl rfl rfl rfl rfl rfl

theorem withdraw_steps (h : σ.Listed)
    (hw : σ.withdraw epoch sender id = some (σ', amount)) : Steps epoch none σ σ' := by
  simp only [withdraw, bind, Option.bind_eq_some_iff, Checked.require_eq_some, Checked.add_eq_some, exists_const] at hw
  obtain ⟨-, hs, next, ⟨-, rfl⟩, free, ⟨-, rfl⟩, hfree, hw⟩ := hw
  cases hw
  have hna : (σ.validators id).status ≠ .active := by
    obtain hs | hs := hs <;> simp [hs]
  have hnn : (σ.validators id).status ≠ .none := by
    obtain hs | hs := hs <;> simp [hs]
  refine ⟨⟨h.indexed, fun j => ?_, fun j hj => ?_, h.count⟩, fun j => ?_⟩
  · by_cases hj : j = id
    · subst hj
      simp [set, h.active, hna]
    · simp [set, hj, h.active]
  · by_cases hjid : j = id
    · subst hjid
      exact h.registered j hnn
    · simp only [set, Function.update_of_ne hjid] at hj
      exact h.registered j hj
  · by_cases hj : j = id
    · subst hj
      exact .withdraws hs (by simp [set]) (by simpa [Sys.UNBONDING_EPOCHS] using hfree)
    · exact .stays (by simp [set, hj]) (by simp [set, hj])

end Leave

end Staking

/-- A validator that a committee member of epoch `e` must be: it has not left before that epoch, and
its stake is still here. -/
def Validator.BondedFor (v : Validator) (e : Nat) : Prop :=
  v.status = .active ∨ (v.status = .exiting ∨ v.status = .slashed) ∧ e ≤ v.exitEpoch

/-- The members of all committees whose evidence counts are bonded. -/
structure StakeWorld.Bonded {X : Type} (w : StakeWorld X) : Prop where
  listed : w.staking.Listed
  current : w.registry.currentEpoch = w.next - 1
  /-- Committees are drawn one epoch ahead. -/
  ahead : ∀ e, w.next < e → (w.registry.committees e).members = []
  exited : ∀ id, (w.staking.validators id).status = .exiting ∨ (w.staking.validators id).status = .slashed →
    (w.staking.validators id).exitEpoch ≤ w.registry.currentEpoch
  members : ∀ e id, id ∈ (w.registry.committees e).members → w.registry.currentEpoch ≤ e + 14 →
    (w.staking.validators id).BondedFor e

section Calls

variable {X : Type} {w w' : StakeWorld X} {σ : Staking} {leaver : Option Nat}

theorem StakeWorld.Bonded.of_eq (h : w.Bonded) (hs : w'.staking = w.staking) (hn : w'.next = w.next)
    (he : w'.registry.currentEpoch = w.registry.currentEpoch) (hc : w'.registry.committees = w.registry.committees) :
    w'.Bonded where
  listed := hs ▸ h.listed
  current := by rw [he, hn, h.current]
  ahead := by
    rw [hn, hc]
    exact h.ahead
  exited := by
    rw [hs, he]
    exact h.exited
  members := by
    rw [hs, he, hc]
    exact h.members

theorem StakeWorld.Bonded.of_steps (h : w.Bonded) (hσ : Staking.Steps w.registry.currentEpoch leaver w.staking σ)
    (hok : ∀ id, leaver = some id → id ∉ (w.registry.committees (w.registry.currentEpoch + 1)).members)
    (hs : w'.staking = σ) (hn : w'.next = w.next) (he : w'.registry.currentEpoch = w.registry.currentEpoch)
    (hc : w'.registry.committees = w.registry.committees) : w'.Bonded := by
  subst hs
  refine ⟨hσ.listed, by rw [he, hn, h.current], ?_, fun id hid => ?_, fun e id hid hle => ?_⟩
  · rw [hn, hc]
    exact h.ahead
  · rw [he]
    cases hσ.moves id with
    | stays hst hex =>
      rw [hst] at hid
      rw [hex]
      exact h.exited id hid
    | enters _ hafter =>
      rw [hafter] at hid
      simp at hid
    | leaves _ _ hex _ => exact hex.le
    | slashed _ _ hex => exact hex.le
    | withdraws _ hafter _ =>
      rw [hafter] at hid
      simp at hid
  · rw [hc] at hid
    rw [he] at hle
    have hbond := h.members e id hid hle
    cases hσ.moves id with
    | stays hst hex => rwa [Validator.BondedFor, hst, hex]
    | enters _ hafter => exact .inl hafter
    | leaves _ hafter hex hchosen =>
      -- the committee of the next epoch is excluded, and there is none for later ones
      refine .inr ⟨hafter, ?_⟩
      rw [hex]
      have hnot := hok id hchosen
      have hne : e ≠ w.registry.currentEpoch + 1 := by
        rintro rfl
        exact hnot hid
      have hahead : e ≤ w.next := by
        by_contra hlt
        rw [h.ahead e (by omega)] at hid
        cases hid
      have := h.current
      omega
    | slashed hbefore hafter hex =>
      refine .inr ⟨.inr hafter, ?_⟩
      rw [hex]
      obtain hact | ⟨-, hle⟩ := hbond
      · exact absurd (hact.symm.trans hbefore) (by simp)
      · exact le_trans hle (h.exited id (.inl hbefore))
    | withdraws hbefore hafter hfree =>
      obtain hact | ⟨-, hle⟩ := hbond
      · rw [hact] at hbefore
        simp at hbefore
      · omega

theorem StakeWorld.Bonded.of_stay (h : w.Bonded) (hσ : Staking.Steps w.registry.currentEpoch none w.staking σ)
    (hs : w'.staking = σ) (hn : w'.next = w.next) (he : w'.registry.currentEpoch = w.registry.currentEpoch)
    (hc : w'.registry.committees = w.registry.committees) : w'.Bonded :=
  h.of_steps hσ (fun _ hj => nomatch hj) hs hn he hc

/-- The calls under which stakes stay bonded: no member of the next epoch's committee asks to exit or
is slashed. -/
def StakeOp.Careful : StakeOp → StakeWorld X → Prop
  | .requestExit _ id, w => id ∉ (w.registry.committees (w.registry.currentEpoch + 1)).members
  | .submitEvidence _ id .., w => id ∉ (w.registry.committees (w.registry.currentEpoch + 1)).members
  | _, _ => True

/-- The epoch starts under which stakes stay bonded: a committee that is kept consists of active
validators. -/
def StakeWorld.KeepsActive (w : StakeWorld X) : Prop :=
  ¬ w.staking.Eligible w.next → ∀ id ∈ (w.registry.committees w.next).members,
    (w.staking.validators id).status = .active

variable {L : Ledger X}

open Lib.Reentry (Call Code)

variable {refuses : Address → Prop}

variable {sender : Address}

theorem receive_ends {value : Nat} {Q : Unit → StakeWorld X → Prop}
    (hQ : ∀ rest, Q () { w with rest }) :
    (receive L sender value w).Ends refuses StakeWorld.Bonded (fun _ => StakeWorld.Bonded) Q := by
  rw [receive, Call.ends_update]
  intro w' hw'
  obtain ⟨rest, -, rfl⟩ := Option.map_eq_some_iff.1 hw'
  exact hQ rest

variable {amount : Nat} {dest : Address}

theorem trySend_ends {Q : Bool → StakeWorld X → Prop} (h : w.Bonded)
    (hQ : ∀ b w', w'.Bonded → Q b w') :
    (trySend L dest amount w).Ends refuses StakeWorld.Bonded (fun _ => StakeWorld.Bonded) Q := by
  refine Call.ends_send (fun sent hsent => ⟨?_, hQ true⟩) (fun _ => hQ false w h) (fun _ => hQ false w h)
  obtain ⟨rest, -, rfl⟩ := Option.map_eq_some_iff.1 hsent
  exact h.of_eq rfl rfl rfl rfl

theorem transfer_keeps (h : w.Bonded) :
    (transfer L dest amount w).Keeps refuses StakeWorld.Bonded := by
  rw [transfer, Code.Keeps, Call.ends_bind]
  refine trySend_ends h fun b w' hw' => ?_
  rw [Call.ends_require]
  exact fun _ => hw'

variable {reporter : Address} {reward : Nat}

theorem payReward_keeps (h : w.Bonded) :
    (payReward L reporter reward w).Keeps refuses StakeWorld.Bonded := by
  unfold payReward
  split
  · exact transfer_keeps h
  · exact h

theorem payOrLock_keeps (h : w.Bonded) :
    (payOrLock L reporter reward w).Keeps refuses StakeWorld.Bonded := by
  unfold payOrLock
  split
  · rw [Code.Keeps, Call.ends_bind]
    refine trySend_ends h fun b w' hw' => ?_
    cases b with
    | true => exact hw'
    | false =>
      simp only [Bool.false_eq_true, if_false, Call.ends_update]
      intro w'' hw''
      obtain ⟨σ', hσ', rfl⟩ := Option.map_eq_some_iff.1 hw''
      obtain ⟨d, rfl⟩ := Staking.lock_eq hσ'
      have hsame : Staking.Steps w'.registry.currentEpoch none w'.staking { w'.staking with deadStake := d } :=
        ⟨hw'.listed.of_status rfl rfl rfl fun _ => rfl, fun _ => .stays rfl rfl⟩
      exact hw'.of_stay hsame rfl rfl rfl rfl
  · exact h

theorem onStaking_keeps {f : Staking → Nat → Option Staking} (leaver : Option Nat) (h : w.Bonded)
    (hok : ∀ id, leaver = some id → id ∉ (w.registry.committees (w.registry.currentEpoch + 1)).members)
    (hf : ∀ σ', f w.staking w.registry.currentEpoch = some σ' →
      Staking.Steps w.registry.currentEpoch leaver w.staking σ') :
    (onStaking f w).Keeps refuses StakeWorld.Bonded := by
  rw [onStaking, Code.Keeps, Call.ends_update]
  intro w' hw'
  obtain ⟨σ', hσ', rfl⟩ := Option.map_eq_some_iff.1 hw'
  exact h.of_steps (hf σ' hσ') hok rfl rfl rfl rfl

variable {id : Nat}

theorem withdraw_keeps (h : w.Bonded) :
    (withdraw L sender id w).Keeps refuses StakeWorld.Bonded := by
  simp only [withdraw, Call.ends_bind, Call.ends_get, Call.ends_lift, Call.ends_set]
  rintro ⟨σ', amount⟩ hσ'
  exact transfer_keeps (h.of_stay (Staking.withdraw_steps h.listed hσ') rfl rfl rfl rfl)

variable {keccak256 : Bytes → Nat} {bls : BlsLib} {chainid : Nat}

variable {r : Registry}

theorem recordSlash_eq {r' : Registry} (h : r.recordSlash amount = some r') :
    r'.currentEpoch = r.currentEpoch ∧ r'.committees = r.committees := by
  obtain ⟨sum, -, h⟩ := Option.bind_eq_some_iff.1 h
  cases h
  exact ⟨rfl, rfl⟩

theorem submitEvidence_keeps {pubkeyPoint msgA sigA msgB sigB : Bytes} (h : w.Bonded)
    (hok : id ∉ (w.registry.committees (w.registry.currentEpoch + 1)).members) :
    (submitEvidence L keccak256 bls chainid sender id pubkeyPoint msgA sigA msgB sigB w).Keeps refuses
      StakeWorld.Bonded := by
  simp only [submitEvidence, Call.ends_bind, Call.ends_get, Call.ends_lift, Call.ends_set]
  rintro key - bps - ⟨σ', p⟩ hσ'
  have hslashed := Staking.slash_steps h.listed hσ'
  refine (payReward_keeps ?_).mono fun _ w' hw' => ?_
  · refine h.of_steps hslashed (fun j hj => ?_) rfl rfl rfl rfl
    obtain rfl := Option.some_inj.1 hj
    exact hok
  · rw [Call.ends_update]
    intro w'' hw''
    obtain ⟨r', hr', rfl⟩ := Option.map_eq_some_iff.1 hw''
    obtain ⟨he, hc⟩ := recordSlash_eq hr'
    exact hw'.of_eq rfl rfl he hc

theorem penalize_keeps {bps : Nat} (h : w.Bonded) :
    (penalize L id bps reporter w).Keeps refuses StakeWorld.Bonded := by
  simp only [penalize, Call.ends_bind, Call.ends_get, Call.ends_lift, Call.ends_set]
  rintro ⟨σ', p⟩ hσ'
  exact payOrLock_keeps (h.of_stay (Staking.penalize_steps h.listed hσ') rfl rfl rfl rfl)

theorem stakeEntry_keeps (op : StakeOp) (h : w.Bonded) (hok : op.Careful w) :
    (stakeEntry L keccak256 bls chainid op w).Keeps refuses StakeWorld.Bonded := by
  cases op with
  | register sender value pubkey pubkeyPoint pop feeRecipient =>
    simp only [stakeEntry, Call.ends_bind]
    refine receive_ends fun rest => ?_
    exact onStaking_keeps none (h.of_eq rfl rfl rfl rfl) (by simp)
      fun σ' hσ' => Staking.register_steps h.listed hσ'
  | deposit sender id value =>
    simp only [stakeEntry, Call.ends_bind]
    refine receive_ends fun rest => ?_
    exact onStaking_keeps none (h.of_eq rfl rfl rfl rfl) (by simp)
      fun σ' hσ' => Staking.deposit_steps h.listed hσ'
  | requestExit sender id =>
    rw [stakeEntry]
    refine onStaking_keeps (some id) h (fun j hj => ?_) fun σ' hσ' => Staking.requestExit_steps h.listed hσ'
    obtain rfl := Option.some_inj.1 hj
    exact hok
  | withdraw sender id => exact withdraw_keeps h
  | setFeeRecipient sender id feeRecipient =>
    rw [stakeEntry]
    exact onStaking_keeps none h (by simp) fun σ' hσ' => Staking.setFeeRecipient_steps h.listed hσ'
  | submitEvidence sender id pubkeyPoint msgA sigA msgB sigB => exact submitEvidence_keeps h hok
  | penalize id bps reporter => exact penalize_keeps h

variable {rules : EpochRules}

theorem StakeWorld.Bonded.starts (h : w.Bonded) (hkeep : w.KeepsActive) (hs : w.Starts keccak256 rules w') : w'.Bonded := by
  obtain ⟨i, r, hi, hr, rfl⟩ := hs
  obtain ⟨hb, -⟩ := epochStart_spec hr
  have hcur : w.registry.currentEpoch ≤ w.next := by
    rw [h.current]
    exact Nat.sub_le _ _
  refine ⟨h.listed, hb.current, fun e he => ?_, fun id hid => ?_, fun e id hid hle => ?_⟩
  · rw [List.eq_nil_iff_forall_not_mem]
    intro id hid
    obtain hold | ⟨heq, -⟩ := of_mem_committee hr hid
    · rw [h.ahead e (by simp only at he; omega)] at hold
      cases hold
    · simp only at he
      omega
  · exact le_trans (h.exited id hid) (hb.current ▸ hcur)
  · simp only [hb.current] at hle
    obtain hold | ⟨rfl, hact | ⟨hnone, hkept⟩⟩ := of_mem_committee hr hid
    · exact h.members e id hold (by omega)
    · rw [hi] at hact
      exact .inl ((h.listed.active id).1 hact)
    · rw [hi] at hnone
      exact .inl (hkeep hnone id hkept)

variable {validators : List StakeWorld.DevValidator}

theorem genesisStaking_spec {σ : Staking}
    (h : StakeWorld.genesisStaking keccak256 validators = some σ) :
    σ.Listed ∧ σ.count = validators.length ∧ (∀ id, 1 ≤ id → id ≤ σ.count → (σ.validators id).status = .active) := by
  induction validators using List.reverseRecOn generalizing σ with
  | nil =>
    cases h
    refine ⟨Staking.Listed.genesis, rfl, fun id h₁ h₂ => ?_⟩
    have : (Staking.genesis).count = 0 := rfl
    omega
  | append_singleton validators v ih =>
    simp only [StakeWorld.genesisStaking, List.foldlM_append, List.foldlM_cons, List.foldlM_nil, Option.bind_eq_bind,
      Option.bind_eq_some_iff, Option.pure_def] at h
    obtain ⟨σ₀, h₀, σ₁, h₁, hσ⟩ := h
    cases hσ
    obtain ⟨hl, hc, hact⟩ := ih h₀
    obtain ⟨hsteps, hc', hnew⟩ := Staking.registerGenesis_spec hl h₁
    refine ⟨hsteps.listed, by rw [hc', hc, List.length_append, List.length_singleton], fun id hpos hle => ?_⟩
    by_cases hid : id = σ₀.count + 1
    · rw [hid]
      exact hnew
    · have hold := hact id hpos (by omega)
      cases hsteps.moves id with
      | stays hs _ => exact hs.trans hold
      | enters _ ha => exact ha
      | leaves _ _ _ hc => cases hc
      | slashed hb _ _ => exact absurd (hold.symm.trans hb) (by simp)
      | withdraws hb _ _ =>
        rw [hold] at hb
        simp at hb

theorem StakeWorld.Bonded.genesis {rest : X}
    (h : StakeWorld.genesis keccak256 validators rest = some w) : w.Bonded := by
  obtain ⟨σ, hσ, h⟩ := Option.bind_eq_some_iff.1 h
  obtain ⟨hl, hcount, hact⟩ := genesisStaking_spec hσ
  cases h
  have hepoch : (if validators.isEmpty then Registry.genesis else Registry.genesis.initializeWith
      (Committee.equal ((List.range validators.length).map (· + 1))).stored).currentEpoch = 0 := by
    split <;> rfl
  have hnone : ∀ id, (σ.validators id).status ≠ .exiting ∧ (σ.validators id).status ≠ .slashed := by
    intro id
    by_cases hid : (σ.validators id).status = .none
    · simp [hid]
    · obtain ⟨h₁, h₂⟩ := hl.registered id hid
      simp [hact id h₁ h₂]
  refine ⟨hl, hepoch, fun e he => ?_, fun id hid => ?_, fun e id hid _ => ?_⟩
  · split
    · rfl
    · have hne : e ≠ 0 := Nat.pos_iff_ne_zero.1 he
      simp [Registry.initializeWith, Registry.genesis, hne, StoredCommittee.empty]
  · obtain hid | hid := hid
    · exact absurd hid (hnone id).1
    · exact absurd hid (hnone id).2
  · simp only at hid
    split at hid
    · cases hid
    · by_cases he : e = 0
      · subst he
        simp only [Registry.initializeWith, Function.update_self, Committee.stored, Committee.equal, List.mem_map,
          List.mem_range] at hid
        obtain ⟨k, hk, rfl⟩ := hid
        exact .inl (hact (k + 1) (Nat.succ_pos k) (by omega))
      · simp [Registry.initializeWith, Registry.genesis, he, StoredCommittee.empty] at hid

variable {e : Nat}

theorem withdraw_eq_none {v : Validator} {epoch : Nat} (hv : σ.validators id = v) (hb : v.BondedFor e)
    (he : epoch ≤ e + 14) (sender : Address) : σ.withdraw epoch sender id = none := by
  subst hv
  by_contra hne
  obtain ⟨⟨σ', amount⟩, hw⟩ := Option.ne_none_iff_exists'.1 hne
  simp only [Staking.withdraw, bind, Option.bind_eq_some_iff, Checked.require_eq_some, Checked.add_eq_some,
    exists_const] at hw
  obtain ⟨-, hs, next, ⟨-, rfl⟩, free, ⟨-, rfl⟩, hfree, -⟩ := hw
  obtain hact | ⟨-, hle⟩ := hb
  · rw [hact] at hs
    simp at hs
  · simp only [Sys.UNBONDING_EPOCHS] at hfree
    omega

theorem Registry.acceptsEvidence_le (h : r.acceptsEvidence e = true) :
    r.currentEpoch ≤ e + 14 := by
  unfold acceptsEvidence at h
  split at h
  · rename_i last hlast
    obtain ⟨-, rfl⟩ := Checked.add_eq_some.1 hlast
    exact of_decide_eq_true h
  · cases h

/-- Over every run from genesis in which no member of the next epoch's committee asks to exit or is
slashed, and no committee is kept with members that have left: as long as evidence of an epoch is
accepted, the members of its committee cannot withdraw and have not withdrawn. -/
theorem stake_stays_bonded {X : Type} (L : Ledger X) (keccak256 : Bytes → Nat) (bls : BlsLib) (chainid : Nat)
    (rules : EpochRules) (validators : List StakeWorld.DevValidator) (rest : X) (w₀ w : StakeWorld X)
    (hgenesis : StakeWorld.genesis keccak256 validators rest = some w₀)
    (hrun : Lib.Reentry.Run (fun _ => True) (stakeEntry L keccak256 bls chainid) StakeOp.Careful
      StakeOp.Careful (fun w w' => w.Starts keccak256 rules w' ∧ w.KeepsActive) w₀ w)
    (e id : Nat) (hid : id ∈ (w.registry.committees e).members) (he : w.registry.acceptsEvidence e = true) :
    (∀ sender, w.staking.withdraw w.registry.currentEpoch sender id = none) ∧
      (w.staking.validators id).status ≠ .withdrawn := by
  have hw : w.Bonded := hrun.invariant (fun op w hw hok => stakeEntry_keeps op hw hok)
    (fun w w' hw ht => hw.starts ht.2 ht.1) (StakeWorld.Bonded.genesis hgenesis)
  have hle := Registry.acceptsEvidence_le he
  have hbond := hw.members e id hid hle
  refine ⟨withdraw_eq_none rfl hbond hle, ?_⟩
  obtain hs | ⟨hs | hs, -⟩ := hbond <;> simp [hs]

end Calls

section Mock

open Lib.Reentry (Run)

def firstByte (b : Bytes) : Nat := (b.headD 0).toNat

def mockKey (k : UInt8) : Bytes := k :: List.replicate 47 0

def mockValidators : List StakeWorld.DevValidator := [⟨mockKey 1, 7, 7, 64 * 10 ^ 18⟩, ⟨mockKey 2, 8, 8, 64 * 10 ^ 18⟩]

def Ledger.none : Ledger Unit := ⟨fun _ _ _ => some (), fun _ _ _ => some (), fun _ _ => ()⟩

def mockBls : BlsLib := ⟨id, fun _ _ _ => true, fun _ _ _ => true⟩

def mockEntry : StakeOp → StakeCall Unit Unit := stakeEntry .none firstByte mockBls 8017

def mockStart (w : StakeWorld Unit) : Option (StakeWorld Unit) :=
  (epochStart firstByte mockRules ⟨false, false, w.staking, 0⟩ w.next w.registry).map fun r =>
    { w with registry := r, next := w.next + 1 }

def mockStarts : Nat → StakeWorld Unit → Option (StakeWorld Unit)
  | 0, w => some w
  | n + 1, w => (mockStarts n w).bind mockStart

variable {w : StakeWorld Unit}

theorem starts_of_mockStart {w' : StakeWorld Unit} (h : mockStart w = some w') : w.Starts firstByte mockRules w' := by
  obtain ⟨r, hr, rfl⟩ := Option.map_eq_some_iff.1 h
  exact ⟨_, r, rfl, hr, rfl⟩

theorem run_of_mockStarts {n : Nat} {w' : StakeWorld Unit} (h : mockStarts n w = some w') :
    Run (fun _ => True) mockEntry (fun _ _ => True) (fun _ _ => True) (fun w w' => w.Starts firstByte mockRules w') w w' := by
  induction n generalizing w' with
  | zero =>
    cases h
    exact .refl _
  | succ n ih =>
    obtain ⟨w₁, h₁, h₂⟩ := Option.bind_eq_some_iff.1 h
    exact .tick (ih h₁) (starts_of_mockStart h₂)

/-- The run: epoch 0 starts and draws validator 1 for epoch 1; the validator asks to exit at once;
fifteen more epochs start. -/
def mockExit : Option (StakeWorld Unit) := do
  let w₀ ← StakeWorld.genesis firstByte mockValidators ()
  let w₁ ← mockStart w₀
  let σ ← w₁.staking.requestExit w₁.registry.currentEpoch 7 1
  mockStarts 15 { w₁ with staking := σ }

/-- A member of the committee of epoch 1 withdraws while evidence of that epoch is still accepted. -/
theorem member_withdraws_in_time :
    ∃ w₀ w : StakeWorld Unit, StakeWorld.genesis firstByte mockValidators () = some w₀ ∧
      Run (fun _ => True) mockEntry (fun _ _ => True) (fun _ _ => True) (fun w w' => w.Starts firstByte mockRules w') w₀ w ∧
      1 ∈ (w.registry.committees 1).members ∧ w.registry.acceptsEvidence 1 = true ∧
      (w.staking.withdraw w.registry.currentEpoch 7 1).isSome = true := by
  have hrun : mockExit.any (fun w => decide (1 ∈ (w.registry.committees 1).members) && w.registry.acceptsEvidence 1 &&
      (w.staking.withdraw w.registry.currentEpoch 7 1).isSome) = true := by decide +kernel
  obtain ⟨w, hw, hend⟩ := (Option.any_eq_true ..).1 hrun
  simp only [mockExit, Option.bind_eq_bind, Option.bind_eq_some_iff] at hw
  obtain ⟨w₀, h₀, w₁, h₁, σ, hσ, hw⟩ := hw
  have hstart := starts_of_mockStart h₁
  have hexit : Lib.Reentry.Finishes (fun _ => True) mockEntry (fun _ _ => True) (mockEntry (.requestExit 7 1) w₁)
      { w₁ with staking := σ } := by
    have hcode : mockEntry (.requestExit 7 1) w₁ = .ret { w₁ with staking := σ } () := by
      simp only [mockEntry, stakeEntry, onStaking, Lib.Reentry.Call.update, hσ, Option.map_some, Option.elim_some]
    rw [hcode]
    exact .ret _
  simp only [Bool.and_eq_true, decide_eq_true_eq] at hend
  exact ⟨w₀, w, h₀, (Run.call _ (.tick (.refl w₀) hstart) trivial hexit).trans (run_of_mockStarts hw), hend.1.1,
    hend.1.2, hend.2⟩

/-- After the start of epoch 0, validator 1 is bonded for epoch 1. -/
theorem stake_stays_bonded_mock :
    ∃ w : StakeWorld Unit, 1 ∈ (w.registry.committees 1).members ∧ w.registry.acceptsEvidence 1 = true ∧
      ∀ sender, w.staking.withdraw w.registry.currentEpoch sender 1 = none := by
  have hrun : ((StakeWorld.genesis firstByte mockValidators ()).bind mockStart).any (fun w =>
      decide (1 ∈ (w.registry.committees 1).members) && w.registry.acceptsEvidence 1) = true := by decide +kernel
  obtain ⟨w, hw, hend⟩ := (Option.any_eq_true ..).1 hrun
  obtain ⟨w₀, h₀, h₁⟩ := Option.bind_eq_some_iff.1 hw
  simp only [Bool.and_eq_true, decide_eq_true_eq] at hend
  have hkeep : w₀.KeepsActive := by
    have hsnap : (StakeWorld.genesis firstByte mockValidators ()).any (fun w =>
        (w.staking.snapshot w.next 0).any fun l => decide (l ≠ [])) = true := by decide +kernel
    rw [h₀, Option.any_some, Option.any_eq_true] at hsnap
    obtain ⟨l, hl, hne⟩ := hsnap
    exact fun hnone => absurd ⟨l, hl, of_decide_eq_true hne⟩ hnone
  exact ⟨w, hend.1, hend.2, (stake_stays_bonded .none firstByte mockBls 8017 mockRules mockValidators () w₀ w h₀
    (.tick (.refl w₀) ⟨starts_of_mockStart h₁, hkeep⟩) 1 1 hend.1 hend.2).1⟩

end Mock

end Boltchain.Contracts
