import Boltchain.Contracts.SwarmOffers

namespace Boltchain.Contracts.SwarmStorage

open Lib Lib.Ledger
open Lib.Reentry (Call Guarantee Finishes)

namespace Swarm

variable {s s' t t' : Swarm} {id i p value since : Nat} {d : Deal} {sl : Slot} {rand : Nat → Nat}

/-- The copy of the deal that `p` held in `t` is held by `p` again in `t'`. -/
def Returned (t t' : Swarm) (id p : Nat) : Prop :=
  ∃ d i d' sl, t.deals[id]? = some d ∧ d.closed = false ∧ copyOf d p = some i ∧
    t'.deals[id]? = some d' ∧ d'.slots[i]? = some sl ∧ sl.isOpen = true ∧ sl.provider = p

/-- A validator whose offer, once it has lost the copy, is open to it again. -/
structure Redrawable (t : Swarm) (id p : Nat) (d : Deal) : Prop where
  deal : t.deals[id]? = some d
  running : d.closed = false ∧ t.epoch < d.endEpoch
  holds : d.holds p = true
  listed : p ∈ t.offerIds
  isOpen : (t.offers p).isOpen = true
  price : (t.offers p).minPrice ≤ d.price
  capacity : (t.offers p).usedMiB ≤ (t.offers p).capacityMiB
  live : t.live p = true

section Draws

theorem live_penalizeStorage (hp : STORAGE_ID_BASE ≤ p) (h : s.penalizeStorage p = some t) : t.live p = false := by
  rw [live, if_pos hp]
  unfold penalizeStorage at h
  split at h
  case h_1 hnone =>
    cases h
    rw [hnone]
    rfl
  case h_2 sp hsp =>
    simp only [bind, Option.bind_eq_some_iff] at h
    obtain ⟨share, -, exitAt, -, h⟩ := h
    cases h
    have hprov := provider?_setProvider hsp { sp with bond := sp.bond - share / 10000, active := false, exitAt } p
    rw [if_pos rfl] at hprov
    change Option.any StorageProvider.active ((s.setProvider p _).provider? p) = false
    rw [hprov]
    rfl

theorem draw_first {c j : Nat} (hc : s.offerIds[j]? = some c) (hle : since ≤ d.endEpoch)
    (hfits : s.eligible d c (d.perEpoch * (d.endEpoch - since)) = some true) :
    s.draw d since (fun _ => j) = some (some c) := by
  have hlt := (List.getElem?_eq_some_iff.1 hc).1
  have hn : s.offerIds.length ≠ 0 := by omega
  rw [draw, if_neg hn, Checked.sub_of_le hle]
  simp only [bind, Option.bind_some]
  rw [DRAW_ATTEMPTS, drawFrom, Nat.mod_eq_of_lt hlt, hc]
  simp only [bind, Option.bind_some, hfits, if_true]

theorem withinLimit_validator (hp : p < STORAGE_ID_BASE) : s.withinLimit p value = some true := by
  have hnone : s.provider? p = none := if_neg (Nat.not_le.2 hp)
  rw [withinLimit, hnone]

end Draws

section Fails

theorem failCopy_eq_some (hd : t.deals[id]? = some d) (hopen : d.closed = false) (hi : copyOf d p = some i) :
    t.failCopy id p rand = some t' ↔ ∃ t₁, t.drop id i = some t₁ ∧ t₁.replace id i rand = some t' := by
  simp only [failCopy, hd, hopen, hi, bind, Option.bind_eq_some_iff, Bool.false_eq_true, if_false]

/-- What `drop` leaves of an offer and of the deal, when the aggregates are exact. -/
theorem drop_of_exact (h : t.Exact) (hd : t.deals[id]? = some d) (hi : copyOf d p = some i) : ∃ t₁ d₁,
    t.drop id i = some t₁ ∧ t₁.deals[id]? = some d₁ ∧ t₁.Exact ∧ d₁.copies p = 0 ∧
      d₁.endEpoch = d.endEpoch ∧ d₁.price = d.price ∧ d₁.sizeMiB = d.sizeMiB ∧ d₁.perEpoch = d.perEpoch ∧
      d₁.slots.length = d.slots.length ∧ t₁.epoch = t.epoch ∧ t₁.offerIds = t.offerIds ∧ (∀ q, t₁.live q = t.live q) ∧
      (t₁.offers p).isOpen = (t.offers p).isOpen ∧ (t₁.offers p).minPrice = (t.offers p).minPrice ∧
      (t₁.offers p).capacityMiB = (t.offers p).capacityMiB ∧
      (t₁.offers p).usedMiB + d.sizeMiB = (t.offers p).usedMiB ∧
      (t₁.offers p).committed + d.perEpoch * (d.endEpoch - t.epoch) ≤ (t.offers p).committed := by
  obtain ⟨sl, hsl, hopen, rfl⟩ := copyOf_eq_some hi
  have hmem := List.mem_of_getElem? hsl
  have hsome : (t.drop id i).isSome := by
    simp [drop, hd, hsl]
  obtain ⟨t₁, ht₁⟩ := Option.isSome_iff_exists.1 hsome
  have hexact := h.dropped hd hsl hopen ht₁
  have hunpaid := h.unpaid_le hd hmem hopen
  have hsize := h.sizeMiB_le hd hmem hopen
  have hpaid := (h.marked d (List.mem_of_getElem? hd) sl hmem).1
  obtain ⟨d₀, sl₀, hd₀, hsl₀, rfl⟩ := drop_eq_some ht₁
  obtain rfl : d = d₀ := Option.some.inj (hd.symm.trans hd₀)
  obtain rfl : sl = sl₀ := Option.some.inj (hsl.symm.trans hsl₀)
  refine ⟨_, _, ht₁, List.getElem?_set_self (List.getElem?_eq_some_iff.1 hd).1, hexact, ?_, rfl, rfl, rfl, rfl,
    List.length_set, rfl, rfl, fun _ => rfl, ?_, ?_, ?_, ?_, ?_⟩
  · have hset := Deal.share_set (w := fun _ _ => 1) (p := sl.provider)
      { d with slots := d.slots.set i { sl with isOpen := false } } { sl with isOpen := false } hsl rfl fun _ => rfl
    have hone := h.single d (List.mem_of_getElem? hd) sl.provider
    have hheld : sl.heldBy sl.provider = true := by
      simp [Slot.heldBy, hopen]
    have hnot : ({ sl with isOpen := false } : Slot).heldBy sl.provider = false := rfl
    rw [hheld, hnot] at hset
    simp only [if_true, Bool.false_eq_true, if_false, ← Deal.copies_eq_share] at hset
    omega
  all_goals
    rw [uncommit_offers, if_pos rfl]
    simp only [setOffer, Function.update_self]
  · split <;> omega
  · have hspan : d.perEpoch * (d.endEpoch - t.epoch) ≤ d.unpaid sl := Nat.mul_le_mul_left _ (by omega)
    rw [Exact.forfeited_eq]
    omega

theorem copyOf_of_holds (h : d.holds p = true) : ∃ i, copyOf d p = some i := by
  cases hi : copyOf d p with
  | some i => exact ⟨i, rfl⟩
  | none =>
    rw [copyOf, List.findIdx?_eq_none_iff] at hi
    obtain ⟨sl, hsl, hheld⟩ := List.any_eq_true.1 h
    rw [hi sl hsl] at hheld
    cases hheld

/-- A copy that is held by the same provider again was drawn for it. -/
theorem redrawable_of_returned (h : t.Exact) (hfail : t.failCopy id p rand = some t') (hret : t.Returned t' id p) :
    ∃ d, t.Redrawable id p d := by
  obtain ⟨d, i, d', sl', hd, hclosed, hi, hd', hsl', hopen', hp'⟩ := hret
  obtain ⟨t₁, ht₁, hreplace⟩ := (failCopy_eq_some hd hclosed hi).1 hfail
  obtain ⟨t₂, d₁, ht₂, hd₁, hexact, hnone, hend, hprice, hsize, hper, hlen, hepoch, hids, hlive, hopen, hmin, hcap,
    hused, hcommitted⟩ := drop_of_exact h hd hi
  obtain rfl : t₁ = t₂ := Option.some.inj (ht₁.symm.trans ht₂)
  have hempty : ∀ sl, d₁.slots[i]? = some sl → ¬ (sl.isOpen = true ∧ sl.provider = p) := by
    rintro sl hsl ⟨ho, hpr⟩
    have hpos : 0 < d₁.copies p :=
      List.countP_pos_iff.2 ⟨sl, List.mem_of_getElem? hsl, by simp [Slot.heldBy, ho, hpr]⟩
    omega
  have hholds : d.holds p = true := by
    obtain ⟨sl, hsl, ho, hpr⟩ := copyOf_eq_some hi
    exact List.any_eq_true.2 ⟨sl, List.mem_of_getElem? hsl, by simp [ho, hpr]⟩
  simp only [replace, bind, Option.bind_eq_some_iff] at hreplace
  obtain ⟨d₂, hd₂, hreplace⟩ := hreplace
  obtain rfl : d₁ = d₂ := Option.some.inj (hd₁.symm.trans hd₂)
  split at hreplace
  case isFalse =>
    cases hreplace
    obtain rfl : d₁ = d' := Option.some.inj (hd₁.symm.trans hd')
    exact absurd ⟨hopen', hp'⟩ (hempty sl' hsl')
  case isTrue hlt =>
    simp only [Option.bind_eq_some_iff] at hreplace
    obtain ⟨found, hfound, hreplace⟩ := hreplace
    cases found with
    | none =>
      cases hreplace
      obtain rfl : d₁ = d' := Option.some.inj (hd₁.symm.trans hd')
      exact absurd ⟨hopen', hp'⟩ (hempty sl' hsl')
    | some who =>
      obtain ⟨d₂, hd₂, -, -, -, rfl⟩ := assign_eq_some.1 hreplace
      obtain rfl : d₁ = d₂ := Option.some.inj (hd₁.symm.trans hd₂)
      have hget := List.getElem?_set_self (l := t₁.deals) (i := id)
        (a := { d₁ with slots := d₁.slots.set i ⟨who, t₁.epoch, t₁.epoch, true⟩ }) (List.getElem?_eq_some_iff.1 hd₁).1
      obtain rfl := Option.some.inj (hget.symm.trans hd')
      have hi' := (List.getElem?_eq_some_iff.1 hsl').1
      rw [List.length_set] at hi'
      obtain rfl := Option.some.inj ((List.getElem?_set_self hi').symm.trans hsl')
      obtain rfl : who = p := hp'
      obtain ⟨hlisted, hfits⟩ := draw_eq_some hfound
      obtain ⟨ho, hm, -, hc, hl, -, -⟩ := eligible_eq_true.1 hfits
      refine ⟨d, hd, ⟨hclosed, ?_⟩, hholds, ?_, ?_, ?_, ?_, ?_⟩
      · omega
      · exact hids ▸ hlisted
      · exact hopen ▸ ho
      · omega
      · omega
      · exact hlive who ▸ hl

/-- For some hashes the copy goes back to the validator that has lost it. -/
theorem returned_of_redrawable (h : t.Exact) (hp : p < STORAGE_ID_BASE) (hr : t.Redrawable id p d) :
    ∃ rand t', t.failCopy id p rand = some t' ∧ t.Returned t' id p := by
  obtain ⟨i, hi⟩ := copyOf_of_holds hr.holds
  obtain ⟨t₁, d₁, ht₁, hd₁, hexact, hnone, hend, hprice, hsize, hper, hlen, hepoch, hids, hlive, hopen, hmin, hcap,
    hused, hcommitted⟩ := drop_of_exact h hr.deal hi
  obtain ⟨hclosed, hlt⟩ := hr.running
  obtain ⟨j, hj⟩ := List.mem_iff_getElem?.1 hr.listed
  have hfits := h.fits p
  have hcapacity := hr.capacity
  have hminPrice := hr.price
  have helig : t₁.eligible d₁ p (d₁.perEpoch * (d₁.endEpoch - t₁.epoch)) = some true := by
    refine eligible_eq_true.2 ⟨hopen ▸ hr.isOpen, ?_, ?_, ?_, hlive p ▸ hr.live, withinLimit_validator hp,
      Deal.holds_eq_false.2 hnone⟩
    · omega
    · omega
    · omega
  have hdraw : t₁.draw d₁ t₁.epoch (fun _ => j) = some (some p) := draw_first (hids ▸ hj) (by omega) helig
  have hvalue : (t₁.offers p).committed + d₁.perEpoch * (d₁.endEpoch - t₁.epoch) < 2 ^ 256 := by
    rw [hper, hend, hepoch]
    omega
  obtain ⟨t', hassign, hd'⟩ : ∃ t', t₁.assign id i p t₁.epoch false = some t' ∧ t'.deals[id]? =
      some { d₁ with slots := d₁.slots.set i ⟨p, t₁.epoch, t₁.epoch, true⟩ } :=
    ⟨_, assign_eq_some.2 ⟨d₁, hd₁, by omega, by omega, hvalue, rfl⟩,
      List.getElem?_set_self (List.getElem?_eq_some_iff.1 hd₁).1⟩
  refine ⟨fun _ => j, t', (failCopy_eq_some hr.deal hclosed hi).2 ⟨t₁, ht₁, ?_⟩, ?_⟩
  · simp only [replace, bind, hd₁, Option.bind_some]
    rw [if_pos (by omega), hdraw]
    exact hassign
  · obtain ⟨sl, hsl, -, -⟩ := copyOf_eq_some hi
    have hlt' := (List.getElem?_eq_some_iff.1 hsl).1
    refine ⟨d, i, _, ⟨p, t₁.epoch, t₁.epoch, true⟩, hr.deal, hclosed, hi, hd', List.getElem?_set_self ?_, rfl, rfl⟩
    omega

end Fails

end Swarm

section Records

variable {refuses : Address → Prop} {ok : Op → Swarm → Prop} {s s' t : Swarm} {epoch k p : Nat} {coinbase : Address}
  {rand : Nat → Nat} {task : Task}

theorem finishes_recordAudit (htask : (s.tasks epoch)[k]? = some task) (hpending : task.state = .pending)
    (hkind : task.kind = .deal) : Finishes refuses entry ok (recordAudit epoch k false coinbase rand s) s' ↔
      ∃ t, Finishes refuses entry ok (penalize task.provider coinbase (s.setTask epoch k { task with state := .failed })) t ∧
        t.failCopy task.target task.provider rand = some s' := by
  have hrecord : recordAudit epoch k false coinbase rand s =
      (penalize task.provider coinbase (s.setTask epoch k { task with state := .failed })).bind fun _ =>
        Call.update fun s => s.failCopy task.target task.provider rand := by
    simp only [recordAudit, bind, Call.get, Reentry.Code.bind, Call.lift, htask, Option.elim, hpending, hkind]
    rfl
  rw [hrecord, Reentry.finishes_bind]
  simp only [Reentry.finishes_update]

theorem exact_of_penalize (hs : s.Exact) (h : Finishes refuses entry (fun _ _ => True) (penalize p coinbase s) t) :
    t.Exact := by
  have hentry (op : Op) (s : Swarm) (hs : s.Exact) (_ : True) : (entry op s).Keeps refuses Swarm.Exact :=
    ends_entry (fun _ _ => True) (.ofInvariant _) (fun s s' hs hm => hs.move hm)
      (fun s s' sender value id epochs hs _ he => hs.extended he) op s hs trivial
  exact h.ends (.ofInvariant _) hentry (ends_penalize s (.ofInvariant _) (fun s s' hs hm => hs.move hm) hs)

theorem penalizeStorage_of_penalize (hp : STORAGE_ID_BASE ≤ p)
    (h : Finishes refuses entry ok (penalize p coinbase s) t) : s.penalizeStorage p = some t := by
  rw [penalize, if_pos hp] at h
  exact (Reentry.finishes_update _).1 h

end Records

/-- A failed copy goes to someone else whatever the hashes, exactly if the provider has no stake, or else
its offer is not open to the copy when it is dropped. -/
theorem replacement_differs_iff (refuses : Address → Prop) (s₀ s t : Swarm) (epoch k : Nat) (coinbase : Address)
    (task : Task) (h₀ : s₀.Initial) (h : Reached refuses s₀ s) (htask : (s.tasks epoch)[k]? = some task)
    (hpending : task.state = .pending) (hkind : task.kind = .deal)
    (hpenalty : Finishes refuses entry (fun _ _ => True)
      (penalize task.provider coinbase (s.setTask epoch k { task with state := .failed })) t) :
    (∀ rand s', t.failCopy task.target task.provider rand = some s' → ¬ t.Returned s' task.target task.provider) ↔
      STORAGE_ID_BASE ≤ task.provider ∨ ¬ ∃ d, t.Redrawable task.target task.provider d := by
  have hexact : t.Exact := exact_of_penalize ((h.exact h₀).aside (.setTask s epoch k _)) hpenalty
  constructor
  · intro hother
    by_contra hnot
    obtain ⟨hlt, d, hr⟩ := not_or.1 hnot |>.imp Nat.not_le.1 not_not.1
    obtain ⟨rand, s', hfail, hret⟩ := Swarm.returned_of_redrawable hexact hlt hr
    exact hother rand s' hfail hret
  · intro hcond rand s' hfail hret
    obtain ⟨d, hr⟩ := Swarm.redrawable_of_returned hexact hfail hret
    obtain hp | hnone := hcond
    · have hdead := Swarm.live_penalizeStorage hp (penalizeStorage_of_penalize hp hpenalty)
      rw [hr.live] at hdead
      cases hdead
    · exact hnone ⟨d, hr⟩

/-- A validator keeps a copy of a deal, and its audit in the next epoch is drawn. -/
def mockAudit : List Op :=
  [.offerStorage 7 1 1024 1, .createDeal 2 5 1 1 1 1 5 1 fun _ _ => 0, .addDealAudits 1 [1] [0] [0]]

theorem mockAudit_effects : ∀ op ∈ mockAudit, entry op = Call.update fun s => op.effect s := by
  simp only [mockAudit, List.forall_mem_cons]
  exact ⟨rfl, rfl, rfl, nofun⟩

def mockTask : Task := ⟨1, 0, 0, .pending, .deal⟩

def mockCopy (since : Nat) : Deal := ⟨2, 1, false, 1, 0, 5, 1, 1, 5, [⟨1, since, since, true⟩]⟩

theorem mockAudit_reached : ∃ s s', Reached (fun _ => False) mock s ∧ (s.tasks 1)[0]? = some mockTask ∧
    s.deals = [mockCopy 0] ∧
    (s.setTask 1 0 { mockTask with state := .failed }).failCopy 0 1 (fun _ => 0) = some s' ∧ s'.deals = [mockCopy 1] := by
  have hbefore : (mockAudit.foldlM Op.effect mock).map (fun s => ((s.tasks 1)[0]?, s.deals)) =
      some (some mockTask, [mockCopy 0]) := by
    decide +kernel
  have hclock : (mockAudit.foldlM Op.effect mock).map (fun s => (s.epoch, s.now)) = some (0, 0) := by
    decide +kernel
  have hafter : (mockAudit.foldlM Op.effect mock).bind (fun s =>
      ((({ s with epoch := 1, now := 1 } : Swarm).setTask 1 0 { mockTask with state := .failed }).failCopy 0 1
        fun _ => 0).map Swarm.deals) = some [mockCopy 1] := by
    decide +kernel
  obtain ⟨s, hs, heq⟩ := Option.map_eq_some_iff.1 hbefore
  rw [hs] at hclock hafter
  obtain ⟨htask, hdeals⟩ := Prod.mk.inj heq
  obtain ⟨hepoch, hnow⟩ := Prod.mk.inj (Option.some.inj hclock)
  obtain ⟨s', hs', hdeals'⟩ := Option.map_eq_some_iff.1 hafter
  have hreached : Reached (fun _ => False) mock s := .effects (.refl mock) mockAudit_effects hs
  exact ⟨{ s with epoch := 1, now := 1 }, s', .tick hreached ⟨1, 1, by omega, by omega, rfl⟩, htask, hdeals, hs', hdeals'⟩

/-- A validator fails its audit and is given the same copy again. -/
theorem failed_copy_returns : ∃ s s', Reached (fun _ => False) mock s ∧ (s.tasks 1)[0]? = some mockTask ∧
    s.deals = [mockCopy 0] ∧
    Finishes (fun _ => False) entry (fun _ _ => True) (entry (.recordAudit 1 0 false 9 fun _ => 0) s) s' ∧
    s'.deals = [mockCopy 1] := by
  obtain ⟨s, s', hreached, htask, hdeals, hs', hdeals'⟩ := mockAudit_reached
  refine ⟨s, s', hreached, htask, hdeals, ?_, hdeals'⟩
  refine (finishes_recordAudit htask rfl rfl).2 ⟨_, ?_, hs'⟩
  -- the proposer takes its share and does nothing else
  exact .accepted (.refl _) (.ret _)

theorem replacement_differs_iff_mock : ∃ s t, Reached (fun _ => False) mock s ∧ (s.tasks 1)[0]? = some mockTask ∧
    Finishes (fun _ => False) entry (fun _ _ => True) (penalize 1 9 (s.setTask 1 0 { mockTask with state := .failed })) t ∧
    ¬ (STORAGE_ID_BASE ≤ 1 ∨ ¬ ∃ d, t.Redrawable 0 1 d) := by
  obtain ⟨s, s', hreached, htask, hdeals, hs', hdeals'⟩ := mockAudit_reached
  have hpenalty : Finishes (fun _ => False) entry (fun _ _ => True)
      (penalize 1 9 (s.setTask 1 0 { mockTask with state := .failed })) (s.setTask 1 0 { mockTask with state := .failed }) :=
    .accepted (.refl _) (.ret _)
  refine ⟨s, _, hreached, htask, hpenalty, fun hcond => ?_⟩
  have hother := (replacement_differs_iff (fun _ => False) mock s _ 1 0 9 mockTask mock_initial hreached htask rfl rfl
    hpenalty).2 hcond
  refine hother _ s' hs' ⟨mockCopy 0, 0, mockCopy 1, ⟨1, 1, 1, true⟩, ?_, rfl, rfl, ?_, rfl, rfl, rfl⟩
  · change s.deals[0]? = _
    rw [hdeals]
    rfl
  · rw [hdeals']
    rfl

end Boltchain.Contracts.SwarmStorage
