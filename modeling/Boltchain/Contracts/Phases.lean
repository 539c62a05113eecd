import Boltchain.Contracts.EpochStart

namespace Boltchain.Contracts

open Boltchain.Consensus (Bytes)
open Lib

/-- A switch after the start of `epoch`: as before, or scheduled now, two epochs ahead. -/
def Switched (epoch : Nat) (before after : Bool × Nat) : Prop :=
  after = before ∨ before.1 = false ∧ after = (true, epoch + 2)

def Registry.checkpoints (r : Registry) : Bool × Nat := (r.checkpointScheduled, r.checkpointEpoch)

def Registry.pos (r : Registry) : Bool × Nat := (r.posScheduled, r.posEpoch)

section Begin

variable {r r' : Registry} {epoch streakRequired : Nat} {met checkpointMet posMet : Bool}

theorem Registry.countCheckpoint_spec (h : r.countCheckpoint epoch met streakRequired = some r') :
    Switched epoch r.checkpoints r'.checkpoints ∧ r'.pos = r.pos ∧ r'.currentEpoch = r.currentEpoch ∧
      r'.committees = r.committees := by
  unfold countCheckpoint at h
  split at h
  · cases h
    exact ⟨.inl rfl, rfl, rfl, rfl⟩
  · rename_i hs
    obtain ⟨streak, -, h⟩ := Option.bind_eq_some_iff.1 h
    split at h
    · obtain ⟨first, hfirst, h⟩ := Option.bind_eq_some_iff.1 h
      obtain ⟨-, rfl⟩ := Checked.add_eq_some.1 hfirst
      cases h
      exact ⟨.inr ⟨by simpa [checkpoints] using hs, rfl⟩, rfl, rfl, rfl⟩
    · cases h
      exact ⟨.inl rfl, rfl, rfl, rfl⟩

theorem Registry.countPos_spec (h : r.countPos epoch met streakRequired = some r') :
    Switched epoch r.checkpoints r'.checkpoints ∧ Switched epoch r.pos r'.pos ∧
      (r'.pos = r.pos ∨ r'.checkpointScheduled = true) ∧ r'.currentEpoch = r.currentEpoch ∧
        r'.committees = r.committees := by
  unfold countPos at h
  split at h
  · cases h
    exact ⟨.inl rfl, .inl rfl, .inl rfl, rfl, rfl⟩
  · rename_i hs
    obtain ⟨streak, -, h⟩ := Option.bind_eq_some_iff.1 h
    split at h
    · obtain ⟨first, hfirst, h⟩ := Option.bind_eq_some_iff.1 h
      obtain ⟨-, rfl⟩ := Checked.add_eq_some.1 hfirst
      have hpos : r.pos.1 = false := by simpa [pos] using hs
      cases hc : r.checkpointScheduled with
      | true =>
        simp only [hc, if_true] at h
        cases h
        exact ⟨.inl (by simp [checkpoints, hc]), .inr ⟨hpos, rfl⟩, .inr rfl, rfl, rfl⟩
      | false =>
        simp only [hc, Bool.false_eq_true, if_false] at h
        cases h
        exact ⟨.inr ⟨hc, rfl⟩, .inr ⟨hpos, rfl⟩, .inr rfl, rfl, rfl⟩
    · cases h
      exact ⟨.inl rfl, .inl rfl, .inl rfl, rfl, rfl⟩

theorem Registry.forget_spec (h : r.forget epoch = some r') :
    r'.checkpoints = r.checkpoints ∧ r'.pos = r.pos ∧ r'.currentEpoch = r.currentEpoch ∧
      (∀ e, epoch ≤ e → r'.committees e = r.committees e) ∧
        ∀ e, r'.committees e = r.committees e ∨ r'.committees e = .empty := by
  obtain ⟨next, hnext, h⟩ := Option.bind_eq_some_iff.1 h
  obtain ⟨-, rfl⟩ := Checked.add_eq_some.1 hnext
  split at h
  · rename_i hkeep
    cases h
    refine ⟨rfl, rfl, rfl, fun e he => Function.update_of_ne ?_ _ _, fun e => ?_⟩
    · have hk : KEEP_EPOCHS = 32 := rfl
      omega
    · by_cases he : e = epoch + 1 - KEEP_EPOCHS
      · exact .inr (by simp [he])
      · exact .inl (Function.update_of_ne he _ _)
  · cases h
    exact ⟨rfl, rfl, rfl, fun _ _ => rfl, fun _ => .inl rfl⟩

theorem Switched.trans {a b c : Bool × Nat} (hab : Switched epoch a b) (hbc : Switched epoch b c) :
    Switched epoch a c := by
  obtain rfl | ⟨ha, rfl⟩ := hab
  · exact hbc
  · obtain rfl | ⟨hb, -⟩ := hbc
    · exact .inr ⟨ha, rfl⟩
    · exact absurd hb (by simp)

structure Began (epoch : Nat) (r r' : Registry) : Prop where
  current : r'.currentEpoch = epoch
  checkpoints : Switched epoch r.checkpoints r'.checkpoints
  pos : Switched epoch r.pos r'.pos
  /-- PoS implies checkpoints. -/
  implied : r'.pos = r.pos ∨ r'.checkpointScheduled = true
  committee : r'.committees epoch = r.committees epoch

theorem Registry.beginEpoch_spec (h : r.beginEpoch epoch checkpointMet posMet streakRequired = some r') :
    Began epoch r r' ∧ ∀ e, r'.committees e = r.committees e ∨ r'.committees e = .empty := by
  obtain ⟨r₁, h₁, h⟩ := Option.bind_eq_some_iff.1 h
  obtain ⟨r₂, h₂, h₃⟩ := Option.bind_eq_some_iff.1 h
  obtain ⟨hc₁, hp₁, he₁, hm₁⟩ := countCheckpoint_spec h₁
  obtain ⟨hc₂, hp₂, hi₂, he₂, hm₂⟩ := countPos_spec h₂
  obtain ⟨hc₃, hp₃, he₃, hm₃, hold⟩ := forget_spec h₃
  have hs : r'.checkpointScheduled = r₂.checkpointScheduled := congrArg Prod.fst hc₃
  rw [hm₂, hm₁] at hold
  refine ⟨?_, hold⟩
  constructor
  case current => rw [he₃, he₂, he₁]
  case checkpoints =>
    rw [hc₃]
    exact Switched.trans hc₁ hc₂
  case pos =>
    rw [hp₃]
    rw [hp₁] at hp₂
    exact hp₂
  case implied =>
    rw [hp₃, hs]
    rw [hp₁] at hi₂
    exact hi₂
  case committee => rw [hm₃ epoch le_rfl, hm₂, hm₁]

end Begin

section Start

variable {keccak256 : Bytes → Nat} {rules : EpochRules} {r r' : Registry} {i : EpochInput} {epoch : Nat}

def Staking.Eligible (σ : Staking) (epoch : Nat) : Prop := ∃ l, σ.snapshot epoch 0 = some l ∧ l ≠ []

def Registry.HasCommittee (r : Registry) (epoch : Nat) : Prop := (r.committees epoch).members ≠ []

variable {c : Committee} {id next seed : Nat} {σ : Staking}

theorem sampleCommittee_active {minAge : Nat}
    (h : sampleCommittee keccak256 rules σ seed epoch next minAge = some c) (hid : id ∈ c.members) : id ∈ σ.active := by
  obtain ⟨l, hl, h⟩ := Option.bind_eq_some_iff.1 h
  set pairs := l.insertionSort fun a b => a.1 ≤ b.1 with hpairs
  obtain ⟨c', hc', hin, -⟩ := Committee.exists_sample keccak256 seed next rules.committeeSize
    (show (pairs.map Prod.fst).length = (pairs.map Prod.snd).length by simp)
  obtain rfl : c = c' := Option.some_inj.1 (h.symm.trans hc')
  obtain ⟨e, he, rfl⟩ := List.mem_map.1 (hin id hid)
  exact (Staking.of_mem_snapshot hl ((List.perm_insertionSort _ l).mem_iff.1 he)).1

theorem sampleCommittee_members_ne_nil (hσ : σ.Eligible epoch)
    (h : sampleCommittee keccak256 rules σ seed epoch next 0 = some c) : c.members ≠ [] := by
  obtain ⟨l, hl, hne⟩ := hσ
  obtain ⟨l', hl', h⟩ := Option.bind_eq_some_iff.1 h
  obtain rfl : l = l' := Option.some_inj.1 (hl.symm.trans hl')
  set pairs := l.insertionSort fun a b => a.1 ≤ b.1 with hpairs
  have hperm : pairs.Perm l := List.perm_insertionSort _ l
  obtain ⟨e, he⟩ := List.exists_mem_of_ne_nil l hne
  have hstake : 0 < e.2 := lt_of_lt_of_le (by decide) (Staking.of_mem_snapshot hl he).2
  have hsum : e.2 ≤ (pairs.map Prod.snd).sum :=
    List.single_le_sum (fun _ _ => Nat.zero_le _) _ (List.mem_map_of_mem (hperm.mem_iff.2 he))
  obtain ⟨c', hc', -, hmem⟩ := Committee.exists_sample keccak256 seed next rules.committeeSize
    (show (pairs.map Prod.fst).length = (pairs.map Prod.snd).length by simp)
  obtain rfl : c = c' := Option.some_inj.1 (h.symm.trans hc')
  exact hmem (by omega) rules.committeeSize_pos

theorem Registry.nextCommittee_spec
    (h : r.nextCommittee keccak256 rules σ seed epoch = some c) :
    (c.members ≠ [] ∧ ∀ id ∈ c.members, id ∈ σ.active) ∨
      (¬ σ.Eligible epoch ∧ c.members = (r.committees epoch).members) := by
  obtain ⟨c₀, h₀, h⟩ := Option.bind_eq_some_iff.1 h
  obtain ⟨c₁, h₁, h⟩ := Option.bind_eq_some_iff.1 h
  cases h
  by_cases he : c₁.isEmpty = true
  · rw [if_pos he]
    refine .inr ⟨fun hel => ?_, rfl⟩
    -- nobody was drawn, even without the condition on the age
    have hz : c₁.members = [] := List.isEmpty_iff.1 he
    split at h₁
    · exact sampleCommittee_members_ne_nil hel h₁ hz
    · rename_i hage
      cases h₁
      have hage : r.minAge rules (epoch + 1) = 0 := by
        by_contra hpos
        exact hage ⟨he, Nat.pos_of_ne_zero hpos⟩
      rw [hage] at h₀
      exact sampleCommittee_members_ne_nil hel h₀ hz
  · rw [if_neg he]
    refine .inl ⟨fun hz => he (List.isEmpty_iff.2 hz), fun id hid => ?_⟩
    split at h₁
    · exact sampleCommittee_active h₁ hid
    · cases h₁
      exact sampleCommittee_active h₀ hid

theorem Registry.nextCommittee_members_ne_nil
    (hσ : σ.Eligible epoch ∨ r.HasCommittee epoch)
    (h : r.nextCommittee keccak256 rules σ seed epoch = some c) : c.members ≠ [] := by
  obtain ⟨hne, -⟩ | ⟨hnone, hkept⟩ := nextCommittee_spec h
  · exact hne
  · rw [hkept]
    exact hσ.resolve_left hnone

theorem epochStart_spec (h : epochStart keccak256 rules i epoch r = some r') :
    Began epoch r r' ∧ (i.staking.Eligible epoch ∨ r.HasCommittee epoch → r'.checkpointScheduled = true →
      r'.checkpointEpoch ≤ epoch + 1 → r'.HasCommittee (epoch + 1)) := by
  obtain ⟨b, hb, h⟩ := Option.bind_eq_some_iff.1 h
  obtain ⟨hbegan, -⟩ := Registry.beginEpoch_spec hb
  split at h
  · obtain ⟨c, hc, h⟩ := Option.bind_eq_some_iff.1 h
    cases h
    refine ⟨⟨hbegan.current, hbegan.checkpoints, hbegan.pos, hbegan.implied, ?_⟩, fun hσ _ _ => ?_⟩
    · rw [← hbegan.committee]
      exact Function.update_of_ne (by omega) _ _
    · have hσ : i.staking.Eligible epoch ∨ b.HasCommittee epoch := by
        rw [Registry.HasCommittee, hbegan.committee]
        exact hσ
      have hstored : (b.setCommittee (epoch + 1) c.stored).committees (epoch + 1) = c.stored :=
        Function.update_self _ _ _
      rw [Registry.HasCommittee, hstored]
      exact Registry.nextCommittee_members_ne_nil hσ hc
  · rename_i hn
    cases h
    exact ⟨hbegan, fun _ hs hle => absurd ⟨hs, hle⟩ hn⟩

theorem of_mem_committee {e : Nat} (h : epochStart keccak256 rules i epoch r = some r')
    (hid : id ∈ (r'.committees e).members) :
    id ∈ (r.committees e).members ∨ e = epoch + 1 ∧
      (id ∈ i.staking.active ∨ ¬ i.staking.Eligible epoch ∧ id ∈ (r.committees epoch).members) := by
  obtain ⟨b, hb, h⟩ := Option.bind_eq_some_iff.1 h
  obtain ⟨hbegan, hold⟩ := Registry.beginEpoch_spec hb
  have hkept : id ∈ (b.committees e).members → id ∈ (r.committees e).members := by
    intro hid
    obtain heq | heq := hold e
    · rwa [heq] at hid
    · rw [heq] at hid
      cases hid
  split at h
  · obtain ⟨c, hc, h⟩ := Option.bind_eq_some_iff.1 h
    cases h
    by_cases he : e = epoch + 1
    · subst he
      rw [Registry.setCommittee_committees, Function.update_self] at hid
      obtain ⟨-, hact⟩ | ⟨hnone, heq⟩ := Registry.nextCommittee_spec hc
      · exact .inr ⟨rfl, .inl (hact id hid)⟩
      · rw [hbegan.committee] at heq
        exact .inr ⟨rfl, .inr ⟨hnone, heq ▸ hid⟩⟩
    · rw [Registry.setCommittee_committees, Function.update_of_ne he] at hid
      exact .inl (hkept hid)
  · cases h
    exact .inl (hkept hid)

end Start

section Runs

variable {keccak256 : Bytes → Nat} {rules : EpochRules} {r r' : Registry} {inputs : List EpochInput} {n : Nat}

structure Scheduled (n : Nat) (r : Registry) : Prop where
  current : r.currentEpoch = n - 1
  checkpoints : r.checkpointScheduled = true → r.checkpointEpoch ≤ n + 1
  pos : r.posScheduled = true → r.checkpointScheduled = true ∧ r.checkpointEpoch ≤ r.posEpoch

theorem Scheduled.genesis : Scheduled 0 .genesis := ⟨rfl, nofun, nofun⟩

theorem Began.checkpointEpoch_le (hr : Scheduled n r) (hb : Began n r r') (hs : r'.checkpointScheduled = true) :
    r'.checkpointEpoch ≤ n + 2 := by
  obtain heq | ⟨-, heq⟩ := hb.checkpoints
  · obtain ⟨hs', he⟩ := Prod.mk.inj heq
    have := hr.checkpoints (hs'.symm.trans hs)
    omega
  · exact (Prod.mk.inj heq).2.le

theorem Began.scheduled (hr : Scheduled n r) (hb : Began n r r') : Scheduled (n + 1) r' := by
  refine ⟨hb.current, hb.checkpointEpoch_le hr, fun hs => ?_⟩
  obtain heq | ⟨hnew, heq⟩ := hb.pos
  · -- PoS was scheduled before, and so were checkpoints
    obtain ⟨hs', he⟩ := Prod.mk.inj heq
    obtain ⟨hc, hle⟩ := hr.pos (hs'.symm.trans hs)
    obtain hceq | ⟨hcnew, -⟩ := hb.checkpoints
    · obtain ⟨hcs, hce⟩ := Prod.mk.inj hceq
      exact ⟨hcs.trans hc, by omega⟩
    · exact absurd (hc.symm.trans hcnew) (by simp)
  · obtain ⟨hs', he⟩ := Prod.mk.inj heq
    have hc : r'.checkpointScheduled = true := by
      obtain hsame | hc := hb.implied
      · have hold : r.posScheduled = true := (Prod.mk.inj hsame).1.symm.trans hs
        exact absurd (hold.symm.trans hnew) (by simp)
      · exact hc
    have := hb.checkpointEpoch_le hr hc
    exact ⟨hc, by omega⟩

theorem scheduled_of_startEpochs (h : startEpochs keccak256 rules inputs 0 .genesis = some r) :
    Scheduled inputs.length r := by
  induction inputs using List.reverseRecOn generalizing r with
  | nil =>
    cases h
    exact Scheduled.genesis
  | append_singleton inputs i ih =>
    obtain ⟨m, hm, hi⟩ := runFrom_concat.1 h
    rw [Nat.zero_add] at hi
    rw [List.length_append, List.length_singleton]
    exact (epochStart_spec hi).1.scheduled (ih hm)

/-- A switch in the states after the start of `n` epochs: as before, or scheduled since. -/
def SwitchedSince (n : Nat) (before after : Bool × Nat) : Prop :=
  after = before ∨ before.1 = false ∧ n + 2 ≤ after.2

theorem SwitchedSince.step {m : Nat} {a b c : Bool × Nat} (hab : SwitchedSince n a b) (hbc : Switched m b c)
    (hnm : n ≤ m) : SwitchedSince n a c := by
  obtain rfl | ⟨hb, rfl⟩ := hbc
  · exact hab
  · obtain rfl | ⟨ha, -⟩ := hab
    · exact .inr ⟨hb, by simpa using hnm⟩
    · exact .inr ⟨ha, by simpa using hnm⟩

theorem switchedSince_of_startEpochs (h : startEpochs keccak256 rules inputs n r = some r') :
    SwitchedSince n r.checkpoints r'.checkpoints ∧ SwitchedSince n r.pos r'.pos := by
  induction inputs using List.reverseRecOn generalizing r' with
  | nil =>
    cases h
    exact ⟨.inl rfl, .inl rfl⟩
  | append_singleton inputs i ih =>
    obtain ⟨m, hm, hi⟩ := runFrom_concat.1 h
    obtain ⟨hc, hp⟩ := ih hm
    obtain ⟨hb, -⟩ := epochStart_spec hi
    exact ⟨hc.step hb.checkpoints (Nat.le_add_right n _), hp.step hb.pos (Nat.le_add_right n _)⟩

theorem SwitchedSince.reached_iff {a b : Bool × Nat} {e : Nat} (h : SwitchedSince n a b) (he : e ≤ n + 1) :
    (b.1 = true ∧ b.2 ≤ e) ↔ (a.1 = true ∧ a.2 ≤ e) := by
  obtain rfl | ⟨ha, hb⟩ := h
  · rfl
  · constructor
    · intro hr
      omega
    · intro hr
      exact absurd (ha.symm.trans hr.1) (by simp)

theorem Registry.isPos_iff (height : Nat) :
    r.phase.isPos rules height = true ↔ r.pos.1 = true ∧ r.pos.2 ≤ rules.epochOf height := by
  cases h : r.posScheduled <;> simp [phase, Phase.isPos, pos, h]

theorem Registry.isCheckpointing_iff (height : Nat) :
    r.phase.isCheckpointing rules height = true ↔
      (r.checkpoints.1 = true ∧ r.checkpoints.2 ≤ rules.epochOf height) ∧ ¬ r.phase.isPos rules height = true := by
  cases h : r.checkpointScheduled <;> simp [phase, Phase.isCheckpointing, checkpoints, h]

theorem phase_of_startEpochs {height : Nat} (h : startEpochs keccak256 rules inputs n r = some r')
    (he : rules.epochOf height ≤ n + 1) :
    r'.phase.isCheckpointing rules height = r.phase.isCheckpointing rules height ∧
      r'.phase.isPos rules height = r.phase.isPos rules height := by
  obtain ⟨hc, hp⟩ := switchedSince_of_startEpochs h
  have hpos : r'.phase.isPos rules height = true ↔ r.phase.isPos rules height = true := by
    rw [Registry.isPos_iff, Registry.isPos_iff]
    exact hp.reached_iff he
  refine ⟨Bool.eq_iff_iff.2 ?_, Bool.eq_iff_iff.2 hpos⟩
  rw [Registry.isCheckpointing_iff, Registry.isCheckpointing_iff, hpos]
  exact and_congr_left fun _ => hc.reached_iff he

theorem hasCommittee_of_epochStart {i : EpochInput} (h : startEpochs keccak256 rules inputs 0 .genesis = some r)
    (hi : epochStart keccak256 rules i inputs.length r = some r') (hs : r'.checkpointScheduled = true)
    (hle : r'.checkpointEpoch ≤ inputs.length) :
    ∃ earlier j r₀, inputs = earlier ++ [j] ∧ startEpochs keccak256 rules earlier 0 .genesis = some r₀ ∧
      (j.staking.Eligible earlier.length ∨ r₀.HasCommittee earlier.length → r'.HasCommittee inputs.length) := by
  obtain ⟨hb, -⟩ := epochStart_spec hi
  have hold : r'.checkpoints = r.checkpoints := by
    obtain heq | ⟨-, heq⟩ := hb.checkpoints
    · exact heq
    · have : r'.checkpointEpoch = inputs.length + 2 := congrArg Prod.snd heq
      omega
  obtain ⟨hs', he'⟩ := Prod.mk.inj hold
  induction inputs using List.reverseRecOn with
  | nil =>
    cases h
    exact absurd (hs'.symm.trans hs) (by decide)
  | append_singleton earlier j =>
    obtain ⟨r₀, h₀, hj⟩ := runFrom_concat.1 h
    rw [Nat.zero_add] at hj
    rw [List.length_append, List.length_singleton] at hle hb ⊢
    refine ⟨earlier, j, r₀, rfl, h₀, fun hσ => ?_⟩
    have hdrawn := (epochStart_spec hj).2 hσ (hs'.symm.trans hs) (by omega)
    rw [Registry.HasCommittee, hb.committee]
    exact hdrawn

/-- From a regular genesis, over all starts of consecutive epochs with any thresholds: each switch is
made at most once, two epochs ahead, PoS not before checkpoints; the phases of blocks up to the next
epoch are final; and an epoch with checkpoints in force starts with the committee that was drawn, or
kept, at the start of the epoch before. -/
theorem phases_never_change (keccak256 : Bytes → Nat) (rules : EpochRules) (past : List EpochInput) (r : Registry)
    (h : startEpochs keccak256 rules past 0 .genesis = some r) :
    (∀ i r', epochStart keccak256 rules i past.length r = some r' →
      r'.currentEpoch = past.length ∧ Switched r'.currentEpoch r.checkpoints r'.checkpoints ∧
        Switched r'.currentEpoch r.pos r'.pos) ∧
    (r.posScheduled = true → r.checkpointScheduled = true ∧ r.checkpointEpoch ≤ r.posEpoch) ∧
    (∀ future r', startEpochs keccak256 rules future past.length r = some r' →
      ∀ height, rules.epochOf height ≤ r.currentEpoch + 1 →
        r'.phase.isCheckpointing rules height = r.phase.isCheckpointing rules height ∧
        r'.phase.isPos rules height = r.phase.isPos rules height) ∧
    (∀ i r', epochStart keccak256 rules i past.length r = some r' →
      r'.checkpointScheduled = true → r'.checkpointEpoch ≤ past.length →
        ∃ earlier j r₀, past = earlier ++ [j] ∧ startEpochs keccak256 rules earlier 0 .genesis = some r₀ ∧
          (j.staking.Eligible earlier.length ∨ r₀.HasCommittee earlier.length →
            r'.HasCommittee past.length)) := by
  have hr := scheduled_of_startEpochs h
  refine ⟨fun i r' hi => ?_, hr.pos, fun future r' hf height he => ?_, fun i r' hi hs hle => ?_⟩
  · obtain ⟨hb, -⟩ := epochStart_spec hi
    rw [hb.current]
    exact ⟨rfl, hb.checkpoints, hb.pos⟩
  · have hcur := hr.current
    exact phase_of_startEpochs hf (by omega)
  · exact hasCommittee_of_epochStart h hi hs hle

end Runs

section Mock

def mockRules : EpochRules where
  epochSlots := 2
  committeeSize := 1
  checkpointMinStakers := 1
  checkpointMinStake := 1
  posMinStakers := 1
  posMinStake := 1
  posStreak := 1
  epochSlots_ge := le_rfl
  committeeSize_pos := Nat.one_pos

def mockStaking : Staking :=
  { Staking.genesis with
    count := 1
    validators := Function.update Staking.genesis.validators 1
      { Validator.empty with stake := 128 * 10 ^ 18, status := .active }
    active := [1]
    activePos := Function.update Staking.genesis.activePos 1 1
    totalActiveStake := 128 * 10 ^ 18 }

def mockInput : EpochInput := ⟨true, false, mockStaking, 0⟩

/-- Checkpoints are scheduled in epoch 0, for epoch 2, whose committee is drawn in epoch 1. -/
theorem phases_never_change_mock :
    ∃ r r', startEpochs (fun _ => 0) mockRules [mockInput, mockInput] 0 .genesis = some r ∧
      epochStart (fun _ => 0) mockRules mockInput 2 r = some r' ∧ r'.checkpoints = (true, 2) ∧
      r'.HasCommittee 2 := by
  have hrun : ((startEpochs (fun _ => 0) mockRules [mockInput, mockInput] 0 .genesis).bind
      (epochStart (fun _ => 0) mockRules mockInput 2)).map Registry.checkpoints = some (true, 2) := by decide
  obtain ⟨r', hr', hc⟩ := Option.map_eq_some_iff.1 hrun
  obtain ⟨r, hr, hi⟩ := Option.bind_eq_some_iff.1 hr'
  obtain ⟨hs, he⟩ := Prod.mk.inj hc
  obtain ⟨earlier, j, r₀, heq, -, hcom⟩ := (phases_never_change _ _ _ r hr).2.2.2 mockInput r' hi hs he.le
  obtain ⟨rfl, hj⟩ : [mockInput] = earlier ∧ [mockInput] = [j] := List.append_inj' heq rfl
  obtain rfl : mockInput = j := by simpa using hj
  exact ⟨r, r', hr, hi, hc, hcom (.inl ⟨[(1, 128 * 10 ^ 18)], by decide, by decide⟩)⟩

end Mock

end Boltchain.Contracts
