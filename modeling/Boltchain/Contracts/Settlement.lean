import Boltchain.Contracts.Rewards

namespace Boltchain.Contracts.Rewards

open Boltchain.Consensus (Bytes)
open Lib Lib.Packed

section Shares

variable {s s' : Distributor} {members : List (Nat × Nat)} {epoch emission paid : Nat} {shares : List Nat}

theorem mapM_eq_some_map {α β : Type} {f : α → Option β} {g : α → β} {l : List α} {out : List β}
    (hfg : ∀ x y, f x = some y → y = g x) (h : l.mapM f = some out) : out = l.map g := by
  induction l generalizing out with
  | nil =>
    cases h
    rfl
  | cons x l ih =>
    simp only [List.mapM_cons, Option.bind_eq_bind, Option.bind_eq_some_iff, Option.pure_def, Option.some_inj] at h
    obtain ⟨y, hy, ys, hys, rfl⟩ := h
    rw [List.map_cons, hfg x y hy, ih hys]

theorem sum_parts_le (whole : Nat) {total : Nat} (parts : List Nat) (h : parts.sum ≤ total) :
    (parts.map fun r => whole * r / total).sum ≤ whole := by
  have hle : (parts.map fun r => whole * r / total).sum ≤ whole * parts.sum / total := by
    clear h
    induction parts with
    | nil => simp
    | cons r parts ih =>
      rw [List.map_cons, List.sum_cons, List.sum_cons, Nat.mul_add]
      have := Nat.add_div_le_add_div (whole * r) (whole * parts.sum) total
      omega
  refine hle.trans (Nat.div_le_of_le_mul ?_)
  rw [Nat.mul_comm total]
  exact Nat.mul_le_mul_left whole h

theorem shares_spec (h : s.shares members epoch emission = some (shares, paid)) : paid = shares.sum ∧ paid ≤ emission ∧
    shares.length = members.length := by
  have hlength : (s.weighted members epoch).length = members.length := by simp [Distributor.weighted]
  unfold Distributor.shares at h
  simp only at h
  split at h
  · rename_i hzero
    cases h
    exact ⟨hzero.symm, Nat.zero_le _, hlength⟩
  · obtain ⟨out, hout, h⟩ := Option.bind_eq_some_iff.1 h
    cases h
    have hparts := mapM_eq_some_map (g := fun r => emission * r / (s.weighted members epoch).sum) ?_ hout
    · rw [hparts]
      refine ⟨rfl, sum_parts_le emission _ le_rfl, ?_⟩
      rw [List.length_map, hlength]
    · intro r y hy
      split at hy
      · rename_i hr
        cases hy
        simp [hr]
      · obtain ⟨p, hp, rfl⟩ := Option.map_eq_some_iff.1 hy
        rw [← (Checked.mul_eq_some.1 hp).2]

def earned (payments : List (Nat × Nat)) (id : Nat) : Nat := ((payments.filter fun p => p.1 = id).map Prod.snd).sum

variable {payments : List (Nat × Nat)} {rewards : Nat → Nat}

theorem foldlM_pay {rewards' : Nat → Nat}
    (h : payments.foldlM pay rewards = some rewards') : ∀ id, rewards' id = rewards id + earned payments id := by
  induction payments generalizing rewards with
  | nil =>
    cases h
    exact fun id => rfl
  | cons p payments ih =>
    rw [List.foldlM_cons] at h
    obtain ⟨rewards₁, h₁, h⟩ := Option.bind_eq_some_iff.1 h
    have hfirst : ∀ id, rewards₁ id = rewards id + if p.1 = id then p.2 else 0 := by
      intro id
      unfold pay at h₁
      split at h₁
      · obtain ⟨sum, hsum, rfl⟩ := Option.map_eq_some_iff.1 h₁
        obtain ⟨-, rfl⟩ := Checked.add_eq_some.1 hsum
        by_cases hid : p.1 = id
        · rw [if_pos hid, ← hid, Function.update_self]
        · rw [if_neg hid, Function.update_of_ne (Ne.symm hid), Nat.add_zero]
      · rename_i hzero
        cases h₁
        rw [not_not.1 hzero, ite_self, Nat.add_zero]
    intro id
    rw [ih h id, hfirst id, earned, earned, List.filter_cons]
    by_cases hid : p.1 = id
    · simp [hid, Nat.add_assoc]
    · simp [hid]

theorem foldlM_pay_isSome
    (h : ∀ p ∈ payments, rewards p.1 + (payments.map Prod.snd).sum < 2 ^ 256) :
    ∃ rewards', payments.foldlM pay rewards = some rewards' := by
  induction payments generalizing rewards with
  | nil => exact ⟨rewards, rfl⟩
  | cons p payments ih =>
    rw [List.map_cons, List.sum_cons] at h
    obtain ⟨hp, hrest⟩ := List.forall_mem_cons.1 h
    have hfirst : pay rewards p = some (Function.update rewards p.1 (rewards p.1 + p.2)) := by
      unfold pay
      split
      · rw [Checked.add_of_lt (by omega)]
        rfl
      · rename_i hzero
        rw [not_not.1 hzero, Nat.add_zero, Function.update_eq_self]
    rw [List.foldlM_cons, hfirst, Option.bind_eq_bind, Option.bind_some]
    refine ih fun q hq => ?_
    by_cases hid : q.1 = p.1
    · rw [hid, Function.update_self]
      omega
    · rw [Function.update_of_ne hid]
      have := hrest q hq
      omega

theorem sum_earned {ids : Finset Nat} (h : ∀ p ∈ payments, p.1 ∈ ids) :
    ∑ id ∈ ids, earned payments id = (payments.map Prod.snd).sum := by
  induction payments with
  | nil => simp [earned]
  | cons p payments ih =>
    obtain ⟨hp, hrest⟩ := List.forall_mem_cons.1 h
    have hcons : ∀ id, earned (p :: payments) id = (if p.1 = id then p.2 else 0) + earned payments id := by
      intro id
      rw [earned, earned, List.filter_cons]
      by_cases hid : p.1 = id
      · simp [hid]
      · simp [hid]
    simp only [hcons, Finset.sum_add_distrib, ih hrest, Finset.sum_ite_eq, hp, if_true, List.map_cons, List.sum_cons]

theorem settle_spec (h : s.settle members epoch emission = some (paid, s')) :
    s.preview members epoch emission = some paid ∧ paid ≤ emission ∧
      paid = ∑ id ∈ (members.map Prod.fst).toFinset, (s'.rewards id - s.rewards id) := by
  simp only [Distributor.settle, bind, Option.bind_eq_some_iff] at h
  obtain ⟨⟨shares, total⟩, hshares, rewards, hrewards, next, -, supply, -, h⟩ := h
  cases h
  obtain ⟨hsum, hle, hlength⟩ := shares_spec hshares
  refine ⟨by rw [Distributor.preview, hshares]; rfl, hle, ?_⟩
  have hpaid := foldlM_pay hrewards
  have hmem : ∀ p ∈ (members.map Prod.fst).zip shares, p.1 ∈ (members.map Prod.fst).toFinset := by
    intro p hp
    rw [List.mem_toFinset]
    exact (List.of_mem_zip hp).1
  have hsnd : (((members.map Prod.fst).zip shares).map Prod.snd).sum = shares.sum := by
    rw [List.map_snd_zip (by simp [hlength])]
  simp only [hpaid, Nat.add_sub_cancel_left]
  rw [sum_earned hmem, hsnd, hsum]

theorem settle_isSome (hpreview : s.preview members epoch emission = some paid) (hepoch : epoch + 1 < 2 ^ 64)
    (hsupply : s.supply + paid < 2 ^ 256) (hrewards : ∀ m ∈ members, s.rewards m.1 + paid < 2 ^ 256) :
    ∃ s', s.settle members epoch emission = some (paid, s') := by
  obtain ⟨⟨shares, total⟩, hshares, rfl⟩ := Option.map_eq_some_iff.1 hpreview
  obtain ⟨hsum, -, hlength⟩ := shares_spec hshares
  have hsnd : (((members.map Prod.fst).zip shares).map Prod.snd).sum = shares.sum := by
    rw [List.map_snd_zip (by simp [hlength])]
  obtain ⟨rewards, hpay⟩ : ∃ rewards, ((members.map Prod.fst).zip shares).foldlM pay s.rewards = some rewards := by
    apply foldlM_pay_isSome
    intro p hp
    obtain ⟨m, hm, hid⟩ := List.mem_map.1 (List.of_mem_zip hp).1
    rw [hsnd, ← hsum, ← hid]
    exact hrewards m hm
  simp only [Distributor.settle, hshares, hpay, bind, Option.bind_some, Checked.add_of_lt hepoch,
    Checked.add_of_lt hsupply]
  exact ⟨_, rfl⟩

end Shares

structure Recorded where
  epoch : Nat
  round : Nat
  bitmap : Bytes
deriving DecidableEq, Repr

/-- The contract with the certificates recorded so far and the epochs that were settled. -/
structure Tally where
  dist : Distributor
  recorded : List Recorded
  settled : List Nat

inductive Call where
  | onBlock (burned minted certEpoch certRound : Nat) (bitmap : Bytes)
  | settle (members : List (Nat × Nat)) (epoch emission : Nat)
  | settleStorage (passed : List Nat) (emission : Nat)
  | claim (id : Nat)
  | burnSupply (amount : Nat)

namespace Tally

variable {t t' : Tally}

def step (t : Tally) : Call → Option Tally
  | .onBlock burned minted certEpoch certRound bitmap =>
    (t.dist.onBlock burned minted certEpoch certRound bitmap).map fun s =>
      { t with
        dist := s
        recorded := if t.dist.counts certEpoch certRound bitmap then t.recorded ++ [⟨certEpoch, certRound, bitmap⟩]
          else t.recorded }
  | .settle members epoch emission =>
    (t.dist.settle members epoch emission).map fun r => { t with dist := r.2, settled := epoch :: t.settled }
  | .settleStorage passed emission =>
    (t.dist.settleStorage passed emission).map fun r => { t with dist := r.2 }
  | .claim id => some { t with dist := t.dist.claim id }
  | .burnSupply amount => some { t with dist := t.dist.burnSupply amount }

inductive Reached (genesisSupply : Nat) : Tally → Prop
  | init : Reached genesisSupply ⟨.genesis genesisSupply, [], []⟩
  | step {t t' : Tally} (call : Call) : Reached genesisSupply t → t.step call = some t' → Reached genesisSupply t'

/-- How many recorded certificates of an epoch not settled yet list member `i`. -/
def tallied (t : Tally) (epoch i : Nat) : Nat :=
  if epoch ∈ t.settled then 0 else t.recorded.countP fun r => r.epoch = epoch ∧ lists r.bitmap i

def rounds (t : Tally) (epoch : Nat) : Finset Nat := ((t.recorded.filter fun r => r.epoch = epoch).map (·.round)).toFinset

def Bounded (t : Tally) : Prop := ∀ epoch, (t.rounds epoch).card ≤ 65535

/-- Certificates are recorded once per round, and counted in the word and field of each member. -/
structure Sound (t : Tally) : Prop where
  closed : ∀ e ∈ t.settled, e < t.dist.settledUpTo
  last : ∀ r ∈ t.recorded, r.epoch ∈ t.settled ∨ r.round ≤ t.dist.lastRecordedRound r.epoch
  once : t.recorded.Pairwise fun r r' => r.epoch = r'.epoch → r.round ≠ r'.round
  packed : t.Bounded → ∀ e w, t.dist.votes e w = pack 16 16 fun k => t.tallied e (16 * w + k)

theorem Sound.tallied_le_rounds (h : t.Sound) (e i : Nat) : t.tallied e i ≤ (t.rounds e).card := by
  unfold tallied
  split
  · exact Nat.zero_le _
  · have hcount : (t.recorded.countP fun r => r.epoch = e ∧ lists r.bitmap i) ≤ (t.recorded.filter fun r => r.epoch = e).length := by
      rw [← List.countP_eq_length_filter]
      refine List.countP_mono_left fun r _ hr => ?_
      simp only [decide_eq_true_eq] at hr ⊢
      exact hr.1
    have hnodup : ((t.recorded.filter fun r => r.epoch = e).map (·.round)).Nodup := by
      rw [List.Nodup, List.pairwise_map]
      refine (h.once.filter _).imp_of_mem fun {r r'} hr hr' hne => hne ?_
      rw [of_decide_eq_true (List.mem_filter.1 hr).2, of_decide_eq_true (List.mem_filter.1 hr').2]
    rw [rounds, List.toFinset_card_of_nodup hnodup, List.length_map]
    exact hcount

theorem Sound.tallied_lt (h : t.Sound) (hb : t.Bounded) (e i : Nat) : t.tallied e i < 2 ^ 16 :=
  ((h.tallied_le_rounds e i).trans (hb e)).trans_lt (by decide)

theorem Bounded.mono (h : t'.Bounded) (hsub : t.recorded.Sublist t'.recorded) : t.Bounded := by
  intro e
  refine (Finset.card_le_card ?_).trans (h e)
  intro n hn
  rw [rounds, List.mem_toFinset] at hn ⊢
  exact ((hsub.filter _).map _).subset hn

theorem Sound.of_frame (h : t.Sound) (hrec : t'.recorded = t.recorded) (hset : t'.settled = t.settled)
    (hvotes : t'.dist.votes = t.dist.votes) (hlast : t'.dist.lastRecordedRound = t.dist.lastRecordedRound)
    (hupto : t'.dist.settledUpTo = t.dist.settledUpTo) : t'.Sound := by
  refine ⟨?_, ?_, ?_, fun hb e w => ?_⟩
  · rw [hset, hupto]
    exact h.closed
  · rw [hrec, hset, hlast]
    exact h.last
  · rw [hrec]
    exact h.once
  · rw [hvotes, h.packed (hb.mono (by rw [hrec])) e w]
    simp only [tallied, hrec, hset]

theorem Sound.onBlock {burned minted certEpoch certRound : Nat} {bitmap : Bytes} (h : t.Sound)
    (hstep : t.step (.onBlock burned minted certEpoch certRound bitmap) = some t') : t'.Sound := by
  obtain ⟨s, hs, rfl⟩ := Option.map_eq_some_iff.1 hstep
  simp only [Distributor.onBlock, bind, Option.bind_eq_some_iff, Checked.require_eq_some, exists_const] at hs
  obtain ⟨supply, -, -, hs⟩ := hs
  by_cases hcounts : t.dist.counts certEpoch certRound bitmap = true
  · rw [if_pos hcounts] at hs
    obtain ⟨v, hv, hs⟩ := Option.bind_eq_some_iff.1 hs
    cases hs
    obtain ⟨-, rfl⟩ := recordVotes_eq_some.1 hv
    simp only [hcounts, if_true]
    simp only [Distributor.counts, Bool.not_eq_true', Bool.or_eq_false_iff, decide_eq_false_iff_not] at hcounts
    obtain ⟨⟨-, hopen⟩, hnew⟩ := hcounts
    have hunsettled : certEpoch ∉ t.settled := fun hmem => hopen (h.closed _ hmem)
    refine ⟨h.closed, fun r hr => ?_, ?_, fun hb e w => ?_⟩
    · obtain hr | hr := List.mem_append.1 hr
      · refine (h.last r hr).imp_right fun hle => ?_
        simp only
        by_cases he : r.epoch = certEpoch
        · rw [he, Function.update_self]
          rw [he] at hle
          omega
        · rwa [Function.update_of_ne he]
      · rw [List.mem_singleton.1 hr]
        exact .inr (by simp)
    · rw [List.pairwise_append]
      refine ⟨h.once, List.pairwise_singleton _ _, fun r hr r' hr' he => ?_⟩
      rw [List.mem_singleton.1 hr'] at he ⊢
      simp only at he ⊢
      obtain hset | hle := h.last r hr
      · rw [he] at hset
        exact absurd hset hunsettled
      · rw [he] at hle
        omega
    · have hpacked := h.packed (hb.mono (List.sublist_append_left ..)) e w
      by_cases he : e = certEpoch
      · subst he
        simp only [Function.update_self]
        rw [hpacked, spread_bitsOf, ← pack_add]
        refine pack_congr fun k _ => ?_
        simp only [tallied, if_neg hunsettled, List.countP_append, List.countP_singleton]
        cases hlist : lists bitmap (16 * w + k) <;> simp
      · simp only
        rw [Function.update_of_ne he, hpacked]
        refine pack_congr fun k _ => ?_
        simp only [tallied, List.countP_append, List.countP_singleton]
        simp [Ne.symm he]
  · rw [if_neg hcounts] at hs
    cases hs
    simp only [if_neg hcounts]
    exact h.of_frame rfl rfl rfl rfl rfl

theorem Sound.settle {members : List (Nat × Nat)} {epoch emission : Nat} (h : t.Sound)
    (hstep : t.step (.settle members epoch emission) = some t') : t'.Sound := by
  obtain ⟨⟨paid, s⟩, hs, rfl⟩ := Option.map_eq_some_iff.1 hstep
  simp only [Distributor.settle, bind, Option.bind_eq_some_iff, Checked.add_eq_some] at hs
  obtain ⟨⟨shares, total⟩, -, rewards, -, next, ⟨-, rfl⟩, supply, -, hs⟩ := hs
  cases hs
  refine ⟨fun e he => ?_, fun r hr => ?_, h.once, fun hb e w => ?_⟩
  · simp only
    obtain rfl | he := List.mem_cons.1 he
    · omega
    · have := h.closed e he
      omega
  · by_cases he : r.epoch = epoch
    · exact .inl (by simp [he])
    · refine (h.last r hr).imp (List.mem_cons_of_mem _) fun hle => ?_
      simp only
      rwa [Function.update_of_ne he]
  · by_cases he : e = epoch
    · subst he
      simp only [Function.update_self]
      exact (pack_eq_zero.2 fun k _ => by simp [tallied]).symm
    · simp only
      rw [Function.update_of_ne he, h.packed hb e w]
      refine pack_congr fun k _ => ?_
      simp [tallied, he]

theorem Sound.step {call : Call} (h : t.Sound) (hstep : t.step call = some t') : t'.Sound := by
  cases call with
  | onBlock burned minted certEpoch certRound bitmap => exact h.onBlock hstep
  | settle members epoch emission => exact h.settle hstep
  | settleStorage passed emission =>
    obtain ⟨⟨paid, s⟩, hs, rfl⟩ := Option.map_eq_some_iff.1 hstep
    unfold Distributor.settleStorage at hs
    split at hs
    · cases hs
      exact h.of_frame rfl rfl rfl rfl rfl
    · simp only [bind, Option.bind_eq_some_iff] at hs
      obtain ⟨rewards, -, supply, -, hs⟩ := hs
      cases hs
      exact h.of_frame rfl rfl rfl rfl rfl
  | claim id =>
    cases hstep
    exact h.of_frame rfl rfl rfl rfl rfl
  | burnSupply amount =>
    cases hstep
    exact h.of_frame rfl rfl rfl rfl rfl

theorem Reached.sound {genesisSupply : Nat} (h : Reached genesisSupply t) : t.Sound := by
  induction h with
  | init =>
    refine ⟨nofun, nofun, List.Pairwise.nil, fun _ e w => ?_⟩
    exact (pack_eq_zero.2 fun k _ => by simp [tallied]).symm
  | step call _ hstep ih => exact ih.step hstep

end Tally

/-- After every run of calls in which at most 65,535 rounds of an epoch are recorded: `preview` gives what
`settle` then pays, at most the emission and as much as the members can claim more, and `settle` does go
through if its sums fit; every counter holds how many recorded certificates of its epoch list its member,
until the epoch is settled; and no round of an epoch is recorded twice. -/
theorem settlement_is_exact (genesisSupply : Nat) (t : Tally) (h : t.Reached genesisSupply) (hb : t.Bounded) :
    (∀ members epoch emission paid s, t.dist.settle members epoch emission = some (paid, s) →
      t.dist.preview members epoch emission = some paid ∧ paid ≤ emission ∧
        paid = ∑ id ∈ (members.map Prod.fst).toFinset, (s.rewards id - t.dist.rewards id)) ∧
    (∀ members epoch emission paid, t.dist.preview members epoch emission = some paid → epoch + 1 < 2 ^ 64 →
      t.dist.supply + paid < 2 ^ 256 → (∀ m ∈ members, t.dist.rewards m.1 + paid < 2 ^ 256) →
        ∃ s, t.dist.settle members epoch emission = some (paid, s)) ∧
    (∀ epoch i, t.dist.votesOf epoch i = t.tallied epoch i) ∧
    t.recorded.Pairwise fun r r' => r.epoch = r'.epoch → r.round ≠ r'.round := by
  refine ⟨fun members epoch emission paid s hs => settle_spec hs,
    fun members epoch emission paid hp he hs hr => settle_isSome hp he hs hr, fun epoch i => ?_, h.sound.once⟩
  rw [Distributor.votesOf, h.sound.packed hb, field_pack (fun k _ => h.sound.tallied_lt hb _ _) (Nat.mod_lt _ (by decide)),
    Nat.div_add_mod]

section Mock

/-- A block with the certificate of round 1 of epoch 1, signed by members 0 and 1, and the same
certificate once more. -/
def mockCalls : List Call := [.onBlock 0 0 1 1 [3], .onBlock 0 0 1 1 [3]]

variable {t : Tally}

theorem Tally.reached_of_foldlM {genesisSupply : Nat} {calls : List Call} {t' : Tally} (ht : t.Reached genesisSupply)
    (h : calls.foldlM Tally.step t = some t') : t'.Reached genesisSupply := by
  induction calls generalizing t with
  | nil =>
    cases h
    exact ht
  | cons call calls ih =>
    rw [List.foldlM_cons] at h
    obtain ⟨t₁, h₁, h⟩ := Option.bind_eq_some_iff.1 h
    exact ih (.step call ht h₁) h

theorem Tally.bounded_of_length (h : t.recorded.length ≤ 65535) : t.Bounded := by
  intro e
  calc (t.rounds e).card ≤ ((t.recorded.filter fun r => r.epoch = e).map (·.round)).length := List.toFinset_card_le _
    _ = (t.recorded.filter fun r => r.epoch = e).length := List.length_map ..
    _ ≤ t.recorded.length := List.length_filter_le ..
    _ ≤ 65535 := h

theorem settlement_is_exact_mock : ∃ t : Tally, t.dist.votesOf 1 1 = 1 ∧
    ∀ paid s, t.dist.settle [(4, 1), (5, 2)] 1 100 = some (paid, s) →
      t.dist.preview [(4, 1), (5, 2)] 1 100 = some paid ∧ paid ≤ 100 := by
  have hcalls : (mockCalls.foldlM Tally.step ⟨.genesis 0, [], []⟩).map (fun t => (t.recorded.length, t.tallied 1 1)) =
      some (1, 1) := by decide +kernel
  obtain ⟨t, ht, heq⟩ := Option.map_eq_some_iff.1 hcalls
  rw [Prod.mk.injEq] at heq
  obtain ⟨hsettle, -, hvotes, -⟩ := settlement_is_exact 0 t (Tally.reached_of_foldlM .init ht)
    (Tally.bounded_of_length (by omega))
  refine ⟨t, (hvotes 1 1).trans heq.2, fun paid s hs => ?_⟩
  obtain ⟨hpreview, hle, -⟩ := hsettle _ _ _ _ _ hs
  exact ⟨hpreview, hle⟩

end Mock

end Boltchain.Contracts.Rewards
