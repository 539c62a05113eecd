import Boltchain.Contracts.SwarmMoves

namespace Boltchain.Contracts.SwarmStorage

open Lib Lib.Ledger
open Lib.Reentry (Call Guarantee Run)

def Slot.heldBy (p : Nat) (sl : Slot) : Bool := sl.isOpen && sl.provider == p

namespace Deal

def unpaid (d : Deal) (sl : Slot) : Nat := d.perEpoch * (d.endEpoch - sl.paidThrough)

def copies (d : Deal) (p : Nat) : Nat := d.slots.countP (Slot.heldBy p)

/-- The sum of `w` over the open copies of the deal that `p` holds. -/
def share (w : Deal → Slot → Nat) (p : Nat) (d : Deal) : Nat := sumOf (fun sl => if sl.heldBy p then w d sl else 0) d.slots

variable {w : Deal → Slot → Nat} {d d' : Deal} {sl sl' : Slot} {i k p : Nat}

theorem copies_eq_share (d : Deal) (p : Nat) : d.copies p = d.share (fun _ _ => 1) p := by
  rw [copies, countP_eq_sumOf, share]
  congr 1
  funext sl
  cases sl.heldBy p <;> rfl

theorem holds_eq_false : d.holds p = false ↔ d.copies p = 0 := by
  rw [copies, List.countP_eq_zero, holds, List.any_eq_false]
  rfl

theorem share_set (d' : Deal) (sl' : Slot) (h : d.slots[i]? = some sl) (hslots : d'.slots = d.slots.set i sl') (hw : ∀ x, w d' x = w d x) :
    d'.share w p + (if sl.heldBy p then w d sl else 0) = d.share w p + (if sl'.heldBy p then w d sl' else 0) := by
  unfold share
  simp only [hslots, hw]
  exact sumOf_set _ h

theorem share_push (hslots : d'.slots = d.slots ++ [sl']) (hw : ∀ x, w d' x = w d x) :
    d'.share w p = d.share w p + (if sl'.heldBy p then w d sl' else 0) := by
  unfold share
  simp only [hslots, hw, sumOf_append, sumOf_singleton]

theorem share_add (d d' : Deal) (hslots : d'.slots = d.slots) (hw : ∀ x ∈ d.slots, w d' x = w d x + k) :
    d'.share w p = d.share w p + k * d.copies p := by
  rw [copies_eq_share]
  unfold share
  rw [hslots]
  revert hw
  induction d.slots with
  | nil =>
    intro _
    simp
  | cons sl l ih =>
    intro hw
    have hl := ih fun x hx => hw x (List.mem_cons_of_mem _ hx)
    have hsl := hw sl List.mem_cons_self
    simp only [sumOf, List.map_cons, List.sum_cons] at hl ⊢
    rw [hl, hsl, Nat.mul_add]
    cases sl.heldBy p <;> simp <;> omega

theorem le_share (h : sl ∈ d.slots) (hp : sl.heldBy p = true) : w d sl ≤ d.share w p := by
  have hmem : (if sl.heldBy p then w d sl else 0) ∈ d.slots.map fun x => if x.heldBy p then w d x else 0 :=
    List.mem_map_of_mem h
  rw [if_pos hp] at hmem
  exact List.le_sum_of_mem hmem

end Deal

namespace Swarm

def held (s : Swarm) (w : Deal → Slot → Nat) (p : Nat) : Nat := sumOf (Deal.share w p) s.deals

/-- The aggregates of every offer are those of the open copies its provider holds, no provider holds two
copies of a deal, nothing is paid in advance and nothing is free. -/
structure Exact (s : Swarm) : Prop where
  committed : ∀ p, (s.offers p).committed = s.held Deal.unpaid p
  usedMiB : ∀ p, (s.offers p).usedMiB = s.held (fun d _ => d.sizeMiB) p
  single : ∀ d ∈ s.deals, ∀ p, d.copies p ≤ 1
  marked : ∀ d ∈ s.deals, ∀ sl ∈ d.slots, sl.paidThrough ≤ s.epoch ∧ sl.paidThrough ≤ d.endEpoch
  priced : ∀ d ∈ s.deals, 0 < d.perEpoch
  fits : ∀ p, (s.offers p).usedMiB < 2 ^ 64 ∧ (s.offers p).committed < 2 ^ 256

variable {s s' : Swarm} {id i p amount value epochs upTo who : Nat} {d d' : Deal} {sl : Slot} {sender : Address}
  {w : Deal → Slot → Nat}

theorem share_le_held (h : s.deals[id]? = some d) : d.share w p ≤ s.held w p :=
  List.le_sum_of_mem (List.mem_map_of_mem (List.mem_of_getElem? h))

namespace Exact

theorem initial (h : s.Initial) : s.Exact := by
  constructor
  · intro p
    rw [h.offers, held, h.deals]
    rfl
  · intro p
    rw [h.offers, held, h.deals]
    rfl
  · rw [h.deals]
    exact nofun
  · rw [h.deals]
    exact nofun
  · rw [h.deals]
    exact nofun
  · intro p
    rw [h.offers]
    decide

/-- A step that changes at most one deal, and the aggregates by as much. -/
theorem step (h : s.Exact) (d' : Deal) (hd : s.deals[id]? = some d) (hdeals : s'.deals = s.deals.set id d') (hepoch : s'.epoch = s.epoch)
    (hc : ∀ p, (s'.offers p).committed + d.share Deal.unpaid p = (s.offers p).committed + d'.share Deal.unpaid p)
    (hu : ∀ p, (s'.offers p).usedMiB + d.share (fun d _ => d.sizeMiB) p =
      (s.offers p).usedMiB + d'.share (fun d _ => d.sizeMiB) p)
    (hs : ∀ p, d'.copies p ≤ 1) (hm : ∀ sl ∈ d'.slots, sl.paidThrough ≤ s.epoch ∧ sl.paidThrough ≤ d'.endEpoch)
    (hper : d'.perEpoch = d.perEpoch) (hfits : ∀ p, (s'.offers p).usedMiB < 2 ^ 64 ∧ (s'.offers p).committed < 2 ^ 256) :
    s'.Exact := by
  have hheld (w : Deal → Slot → Nat) (p : Nat) : s'.held w p + d.share w p = s.held w p + d'.share w p := by
    rw [held, hdeals]
    exact sumOf_set _ hd
  constructor
  · intro p
    have := hc p
    have := hheld Deal.unpaid p
    have := h.committed p
    omega
  · intro p
    have := hu p
    have := hheld (fun d _ => d.sizeMiB) p
    have := h.usedMiB p
    omega
  · intro d₀ hd₀
    rw [hdeals] at hd₀
    obtain hd₀ | rfl := List.mem_or_eq_of_mem_set hd₀
    · exact h.single d₀ hd₀
    · exact hs
  · intro d₀ hd₀
    rw [hdeals] at hd₀
    rw [hepoch]
    obtain hd₀ | rfl := List.mem_or_eq_of_mem_set hd₀
    · exact h.marked d₀ hd₀
    · exact hm
  · intro d₀ hd₀
    rw [hdeals] at hd₀
    obtain hd₀ | rfl := List.mem_or_eq_of_mem_set hd₀
    · exact h.priced d₀ hd₀
    · rw [hper]
      exact h.priced d (List.mem_of_getElem? hd)
  · exact hfits

theorem fits_of_le (h : s.Exact) (hle : ∀ p, (s'.offers p).usedMiB ≤ (s.offers p).usedMiB ∧
    (s'.offers p).committed ≤ (s.offers p).committed) (p : Nat) :
    (s'.offers p).usedMiB < 2 ^ 64 ∧ (s'.offers p).committed < 2 ^ 256 :=
  ⟨(hle p).1.trans_lt (h.fits p).1, (hle p).2.trans_lt (h.fits p).2⟩

theorem unpaid_le (h : s.Exact) (hd : s.deals[id]? = some d) (hsl : sl ∈ d.slots) (hopen : sl.isOpen = true) :
    d.unpaid sl ≤ (s.offers sl.provider).committed := by
  rw [h.committed]
  exact (Deal.le_share hsl (by simp [Slot.heldBy, hopen])).trans (share_le_held hd)

theorem sizeMiB_le (h : s.Exact) (hd : s.deals[id]? = some d) (hsl : sl ∈ d.slots) (hopen : sl.isOpen = true) :
    d.sizeMiB ≤ (s.offers sl.provider).usedMiB := by
  rw [h.usedMiB]
  exact (Deal.le_share (w := fun d _ => d.sizeMiB) hsl (by simp [Slot.heldBy, hopen])).trans (share_le_held hd)

theorem forfeited_eq (d : Deal) (sl : Slot) :
    (if sl.paidThrough < d.endEpoch then d.perEpoch * (d.endEpoch - sl.paidThrough) else 0) = d.unpaid sl := by
  split
  case isTrue => rfl
  case isFalse hle => rw [Deal.unpaid, Nat.sub_eq_zero_of_le (Nat.not_lt.1 hle), Nat.mul_zero]

theorem marked_set {b : Nat} {sl' : Slot} (hm : ∀ x ∈ d.slots, x.paidThrough ≤ b ∧ x.paidThrough ≤ d.endEpoch)
    (hsl : sl'.paidThrough ≤ b ∧ sl'.paidThrough ≤ d.endEpoch) :
    ∀ x ∈ d.slots.set i sl', x.paidThrough ≤ b ∧ x.paidThrough ≤ d.endEpoch := by
  intro x hx
  obtain hx | rfl := List.mem_or_eq_of_mem_set hx
  · exact hm x hx
  · exact hsl

theorem aside (h : s.Exact) (ha : s.Aside s') : s'.Exact := by
  constructor
  · intro p
    rw [ha.committed, h.committed, held, held, ha.deals]
  · intro p
    rw [ha.usedMiB, h.usedMiB, held, held, ha.deals]
  · rw [ha.deals]
    exact h.single
  · rw [ha.deals, ha.epoch]
    exact h.marked
  · rw [ha.deals]
    exact h.priced
  · exact h.fits_of_le fun p => ⟨(ha.usedMiB p).le, (ha.committed p).le⟩

theorem opened (h : s.Exact) (hslots : d.slots = []) (hpos : 0 < d.perEpoch) :
    Exact { s.receive value with deals := s.deals ++ [d] } := by
  have hshare (w : Deal → Slot → Nat) (p : Nat) : d.share w p = 0 := by
    rw [Deal.share, hslots]
    rfl
  constructor
  · intro p
    rw [held, sumOf_append, sumOf_singleton, hshare, Nat.add_zero]
    exact h.committed p
  · intro p
    rw [held, sumOf_append, sumOf_singleton, hshare, Nat.add_zero]
    exact h.usedMiB p
  · intro d₀ hd₀ p
    obtain hd₀ | hd₀ := List.mem_append.1 hd₀
    · exact h.single d₀ hd₀ p
    · obtain rfl := List.mem_singleton.1 hd₀
      simp [Deal.copies, hslots]
  · intro d₀ hd₀
    obtain hd₀ | hd₀ := List.mem_append.1 hd₀
    · exact h.marked d₀ hd₀
    · obtain rfl := List.mem_singleton.1 hd₀
      simp [hslots]
  · intro d₀ hd₀
    obtain hd₀ | hd₀ := List.mem_append.1 hd₀
    · exact h.priced d₀ hd₀
    · obtain rfl := List.mem_singleton.1 hd₀
      exact hpos
  · exact h.fits

theorem holds_of_eligible (h : s.eligible d who value = some true) : d.copies who = 0 := by
  obtain ⟨-, -, -, -, -, -, hholds⟩ := eligible_eq_true.1 h
  exact Deal.holds_eq_false.1 hholds

/-- A copy of `who` is added to a deal of which it has none. -/
theorem assigned (h : s.Exact) (hd : s.deals[id]? = some d) (hnone : d.copies who = 0)
    (hterms : d'.perEpoch = d.perEpoch ∧ d'.endEpoch = d.endEpoch ∧ d'.sizeMiB = d.sizeMiB)
    (hshare : ∀ w p, (∀ x, w d' x = w d x) → d'.share w p =
      d.share w p + if (⟨who, s.epoch, s.epoch, true⟩ : Slot).heldBy p then w d ⟨who, s.epoch, s.epoch, true⟩ else 0)
    (hm : ∀ sl ∈ d'.slots, sl.paidThrough ≤ s.epoch ∧ sl.paidThrough ≤ d'.endEpoch)
    (hused : (s.offers who).usedMiB + d.sizeMiB < 2 ^ 64)
    (hcommitted : (s.offers who).committed + d.perEpoch * (d.endEpoch - s.epoch) < 2 ^ 256) :
    ((s.setDeal id d').setOffer who { s.offers who with
      usedMiB := (s.offers who).usedMiB + d.sizeMiB
      committed := (s.offers who).committed + d.perEpoch * (d.endEpoch - s.epoch) }).Exact := by
  obtain ⟨hper, hend, hsize⟩ := hterms
  have hheld (p : Nat) : (⟨who, s.epoch, s.epoch, true⟩ : Slot).heldBy p = decide (p = who) := by
    simp [Slot.heldBy, Bool.beq_eq_decide_eq, eq_comm]
  refine h.step d' hd rfl rfl (fun p => ?_) (fun p => ?_) (fun p => ?_) hm hper fun p => ?_
  · rw [hshare Deal.unpaid p (fun x => by simp only [Deal.unpaid, hper, hend]), hheld]
    by_cases hp : p = who
    · subst hp
      simp only [setOffer, Function.update_self, Deal.unpaid, decide_true, if_pos]
      omega
    · simp only [setOffer, setDeal, Function.update_of_ne hp, hp, decide_false, Bool.false_eq_true, if_false]
      omega
  · rw [hshare (fun d _ => d.sizeMiB) p (fun _ => hsize), hheld]
    by_cases hp : p = who
    · subst hp
      simp only [setOffer, Function.update_self, decide_true, if_pos]
      omega
    · simp only [setOffer, setDeal, Function.update_of_ne hp, hp, decide_false, Bool.false_eq_true, if_false]
      omega
  · have hs := h.single d (List.mem_of_getElem? hd) p
    rw [Deal.copies_eq_share, hshare _ p (fun _ => rfl), hheld, ← Deal.copies_eq_share]
    by_cases hp : p = who
    · subst hp
      simp [hnone]
    · simpa [hp] using hs
  · by_cases hp : p = who
    · subst hp
      simp only [setOffer, Function.update_self]
      exact ⟨hused, hcommitted⟩
    · simp only [setOffer, setDeal, Function.update_of_ne hp]
      exact h.fits p

theorem pushed (h : s.Exact) (hd : s.deals[id]? = some d) (hnone : d.copies who = 0)
    (hassign : s.assign id i who s.epoch true = some s') : s'.Exact := by
  obtain ⟨d₀, hd₀, hle, hused, hcommitted, rfl⟩ := assign_eq_some.1 hassign
  obtain rfl : d = d₀ := Option.some.inj (hd.symm.trans hd₀)
  refine h.assigned hd hnone ⟨rfl, rfl, rfl⟩ (fun w p hw => Deal.share_push rfl hw) ?_ hused hcommitted
  intro x hx
  obtain hx | hx := List.mem_append.1 hx
  · exact h.marked d (List.mem_of_getElem? hd) x hx
  · obtain rfl := List.mem_singleton.1 hx
    exact ⟨le_rfl, hle⟩

theorem refilled (h : s.Exact) (hd : s.deals[id]? = some d) (hsl : d.slots[i]? = some sl) (hempty : sl.isOpen = false)
    (hnone : d.copies who = 0) (hassign : s.assign id i who s.epoch false = some s') : s'.Exact := by
  obtain ⟨d₀, hd₀, hle, hused, hcommitted, rfl⟩ := assign_eq_some.1 hassign
  obtain rfl : d = d₀ := Option.some.inj (hd.symm.trans hd₀)
  refine h.assigned hd hnone ⟨rfl, rfl, rfl⟩ (fun w p hw => ?_)
    (marked_set (h.marked d (List.mem_of_getElem? hd)) ⟨le_rfl, hle⟩) hused hcommitted
  have hset := Deal.share_set (p := p) _ ⟨who, s.epoch, s.epoch, true⟩ hsl rfl hw
  have hnot : sl.heldBy p = false := by
    simp [Slot.heldBy, hempty]
  rw [hnot] at hset
  exact hset

/-- A copy changes with its provider's aggregates, and is worth no more than before. -/
theorem changed (h : s.Exact) (sl' : Slot) (hd : s.deals[id]? = some d) (hsl : d.slots[i]? = some sl)
    (hopen : sl.isOpen = true) (hdeals : s'.deals = s.deals.set id d') (hepoch : s'.epoch = s.epoch)
    (hslots : d'.slots = d.slots.set i sl') (hprovider : sl'.provider = sl.provider)
    (hterms : d'.perEpoch = d.perEpoch ∧ d'.endEpoch = d.endEpoch ∧ d'.sizeMiB = d.sizeMiB)
    (hmarked : sl'.paidThrough ≤ s.epoch ∧ sl'.paidThrough ≤ d.endEpoch) (hworth : d.unpaid sl' ≤ d.unpaid sl)
    (hothers : ∀ p, p ≠ sl.provider → s'.offers p = s.offers p)
    (hcommitted : (s'.offers sl.provider).committed + d.unpaid sl =
      (s.offers sl.provider).committed + if sl'.isOpen then d.unpaid sl' else 0)
    (hused : (s'.offers sl.provider).usedMiB + d.sizeMiB =
      (s.offers sl.provider).usedMiB + if sl'.isOpen then d.sizeMiB else 0) : s'.Exact := by
  obtain ⟨hper, hend, hsize⟩ := hterms
  have hset (w : Deal → Slot → Nat) (p : Nat) (hw : ∀ x, w d' x = w d x) :
      d'.share w p + (if p = sl.provider then w d sl else 0) =
        d.share w p + if p = sl.provider then (if sl'.isOpen then w d sl' else 0) else 0 := by
    have hshare := Deal.share_set (p := p) d' sl' hsl hslots hw
    by_cases hp : p = sl.provider
    · simpa [Slot.heldBy, hopen, hprovider, hp] using hshare
    · simpa [Slot.heldBy, hprovider, hp, Ne.symm hp] using hshare
  refine h.step d' hd hdeals hepoch (fun p => ?_) (fun p => ?_) (fun p => ?_) ?_ hper (h.fits_of_le fun p => ?_)
  · have := hset Deal.unpaid p fun x => by simp only [Deal.unpaid, hper, hend]
    by_cases hp : p = sl.provider
    · subst hp
      simp only [if_pos] at this
      omega
    · simp only [if_neg hp] at this
      rw [hothers p hp]
      omega
  · have := hset (fun d _ => d.sizeMiB) p fun _ => hsize
    by_cases hp : p = sl.provider
    · subst hp
      simp only [if_pos] at this
      omega
    · simp only [if_neg hp] at this
      rw [hothers p hp]
      omega
  · have hs := h.single d (List.mem_of_getElem? hd) p
    have := hset (fun _ _ => 1) p fun _ => rfl
    rw [Deal.copies_eq_share] at hs ⊢
    split_ifs at this <;> omega
  · rw [hslots, hend]
    exact marked_set (h.marked d (List.mem_of_getElem? hd)) hmarked
  · by_cases hp : p = sl.provider
    · subst hp
      split at hused <;> split at hcommitted <;> omega
    · rw [hothers p hp]
      exact ⟨le_rfl, le_rfl⟩

theorem dropped (h : s.Exact) (hd : s.deals[id]? = some d) (hsl : d.slots[i]? = some sl) (hopen : sl.isOpen = true)
    (hdrop : s.drop id i = some s') : s'.Exact := by
  obtain ⟨d₀, sl₀, hd₀, hsl₀, rfl⟩ := drop_eq_some hdrop
  obtain rfl : d = d₀ := Option.some.inj (hd.symm.trans hd₀)
  obtain rfl : sl = sl₀ := Option.some.inj (hsl.symm.trans hsl₀)
  have hmem := List.mem_of_getElem? hsl
  have hunpaid := h.unpaid_le hd hmem hopen
  have hsize := h.sizeMiB_le hd hmem hopen
  refine h.changed { sl with isOpen := false } hd hsl hopen rfl rfl rfl rfl ⟨rfl, rfl, rfl⟩
    (h.marked d (List.mem_of_getElem? hd) sl hmem) le_rfl (fun p hp => ?_) ?_ ?_
  · rw [uncommit_offers, if_neg hp]
    simp only [setOffer, setDeal, Function.update_of_ne hp]
  · rw [uncommit_offers, if_pos rfl, forfeited_eq]
    simp only [setOffer, Function.update_self, Bool.false_eq_true, if_false]
    omega
  · rw [uncommit_offers, if_pos rfl]
    simp only [setOffer, Function.update_self, Bool.false_eq_true, if_false]
    split <;> omega

theorem paid (h : s.Exact) (hd : s.deals[id]? = some d) (hsl : d.slots[i]? = some sl) (hopen : sl.isOpen = true)
    (hdue : min upTo d.endEpoch ≤ s.epoch) (hpay : s.pay id i upTo = some s') : s'.Exact := by
  obtain ⟨d₀, sl₀, hd₀, hsl₀, rfl | ⟨hlt, -, hcredit⟩⟩ := pay_eq_some hpay
  · exact h
  obtain rfl : d = d₀ := Option.some.inj (hd.symm.trans hd₀)
  obtain rfl : sl = sl₀ := Option.some.inj (hsl.symm.trans hsl₀)
  obtain ⟨-, -, providers, balanceOf, rfl⟩ := credit_spec hcredit
  have hunpaid := h.unpaid_le hd (List.mem_of_getElem? hsl) hopen
  -- the copy is worth less by the amount
  have hamount : d.unpaid sl = d.unpaid { sl with paidThrough := min upTo d.endEpoch } +
      d.perEpoch * (min upTo d.endEpoch - sl.paidThrough) := by
    simp only [Deal.unpaid]
    rw [← Nat.mul_add]
    congr 1
    omega
  refine h.changed { sl with paidThrough := min upTo d.endEpoch } hd hsl hopen rfl rfl rfl rfl ⟨rfl, rfl, rfl⟩
    ⟨hdue, Nat.min_le_right _ _⟩ (by omega) (fun p hp => ?_) ?_ ?_
  · simp only [Swarm.paid]
    rw [uncommit_offers, if_neg hp]
    rfl
  · simp only [Swarm.paid]
    rw [uncommit_offers, if_pos rfl, if_pos hopen]
    simp only [setDeal]
    omega
  · simp only [Swarm.paid]
    rw [uncommit_offers, if_pos rfl, if_pos hopen]
    rfl

end Exact

section Loops

/-- The loop of `extendDeal`: every offer commits the amount once for each copy. -/
theorem commit_spec {l : List Slot} (h : l.foldlM (commit amount) s = some s') : ∃ offers, s' = { s with offers } ∧
    (∀ p, (s.offers p).committed < 2 ^ 256 → (offers p).committed < 2 ^ 256) ∧
    ∀ p, offers p = { s.offers p with committed := (s.offers p).committed + amount * l.countP (Slot.heldBy p) } := by
  induction l generalizing s with
  | nil =>
    obtain rfl : s = s' := Option.some.inj h
    exact ⟨s.offers, rfl, fun _ h => h, fun p => by simp⟩
  | cons sl l ih =>
    simp only [List.foldlM_cons, bind, Option.bind_eq_some_iff] at h
    obtain ⟨s₁, h₁, h⟩ := h
    obtain ⟨offers, rfl, hfits, hoffers⟩ := ih h
    unfold commit at h₁
    split at h₁
    case isTrue hopen =>
      simp only [bind, Option.bind_eq_some_iff, Checked.add_eq_some] at h₁
      obtain ⟨c, ⟨hlt, rfl⟩, h₁⟩ := h₁
      cases h₁
      refine ⟨offers, rfl, fun p hp => hfits p ?_, fun p => ?_⟩
      · simp only [setOffer, Function.update_apply]
        split
        · exact hlt
        · exact hp
      rw [hoffers, List.countP_cons]
      by_cases hp : p = sl.provider
      · subst hp
        simp only [setOffer, Function.update_self, Slot.heldBy, hopen, beq_self_eq_true, Bool.and_self, if_pos]
        congr 1
        rw [Nat.mul_add, Nat.mul_one]
        omega
      · have hnot : sl.heldBy p = false := by
          simp [Slot.heldBy, Ne.symm hp]
        simp [setOffer, Function.update_of_ne hp, hnot]
    case isFalse hopen =>
      cases h₁
      refine ⟨offers, rfl, hfits, fun p => ?_⟩
      have hnot : sl.heldBy p = false := by
        simp [Slot.heldBy, hopen]
      rw [hoffers, List.countP_cons, hnot]
      simp

/-- The loop of `cancelDeal`: every offer gives the amount back once for each copy. -/
theorem release_spec (amount : Nat) (l : List Slot) (s : Swarm) : ∃ offers, l.foldl (release amount) s = { s with offers } ∧
    ∀ p, offers p = { s.offers p with committed := (s.offers p).committed - amount * l.countP (Slot.heldBy p) } := by
  induction l generalizing s with
  | nil => exact ⟨s.offers, rfl, fun p => by simp⟩
  | cons sl l ih =>
    rw [List.foldl_cons]
    cases hopen : sl.isOpen with
    | true =>
      have hstep : release amount s sl = s.uncommit sl.provider amount := if_pos hopen
      obtain ⟨offers, heq, hoffers⟩ := ih (s.uncommit sl.provider amount)
      rw [hstep, heq]
      refine ⟨offers, rfl, fun p => ?_⟩
      rw [hoffers, List.countP_cons, uncommit_offers]
      by_cases hp : p = sl.provider
      · subst hp
        simp only [Slot.heldBy, hopen, beq_self_eq_true, Bool.and_self, if_pos]
        congr 1
        rw [Nat.mul_add, Nat.mul_one]
        omega
      · have hnot : sl.heldBy p = false := by
          simp [Slot.heldBy, Ne.symm hp]
        simp [hp, hnot]
    | false =>
      have hstep : release amount s sl = s := if_neg (by simp [hopen])
      obtain ⟨offers, heq, hoffers⟩ := ih s
      rw [hstep, heq]
      refine ⟨offers, rfl, fun p => ?_⟩
      have hnot : sl.heldBy p = false := by
        simp [Slot.heldBy, hopen]
      rw [hoffers, List.countP_cons, hnot]
      simp

theorem extendDeal_eq_some (h : s.extendDeal sender value id epochs = some s') : ∃ d offers, s.deals[id]? = some d ∧
    sender = d.owner ∧ d.closed = false ∧ s.epoch < d.endEpoch ∧ epochs ≠ 0 ∧
    d.perEpoch * d.replicas * epochs ≤ value ∧
    s' = { (s.receive value).setDeal id { d with endEpoch := d.endEpoch + epochs, escrow := d.escrow + value } with offers } ∧
    (∀ p, (s.offers p).committed < 2 ^ 256 → (offers p).committed < 2 ^ 256) ∧
    ∀ p, offers p = { s.offers p with committed := (s.offers p).committed + d.perEpoch * epochs * d.copies p } := by
  simp only [extendDeal, bind, Option.bind_eq_some_iff, Checked.require_eq_some, Checked.add_eq_some,
    Checked.sub_eq_some, exists_const] at h
  obtain ⟨d, hd, hsender, ⟨hclosed, hlt⟩, span, ⟨-, rfl⟩, ⟨hne, -⟩, hpaid, e, ⟨-, rfl⟩, escrow, ⟨-, rfl⟩, h⟩ := h
  obtain ⟨offers, rfl, hfits, hoffers⟩ := commit_spec h
  exact ⟨d, offers, hd, hsender, hclosed, hlt, hne, hpaid, rfl, hfits, hoffers⟩

theorem cancelDeal_eq_some (h : s.cancelDeal sender id = some s') : ∃ d offers, s.deals[id]? = some d ∧
    sender = d.owner ∧ d.closed = false ∧ s.epoch + 1 < d.endEpoch ∧
    s' = { s.setDeal id { d with endEpoch := s.epoch + 1 } with offers } ∧
    ∀ p, offers p = { s.offers p with
      committed := (s.offers p).committed - d.perEpoch * (d.endEpoch - (s.epoch + 1)) * d.copies p } := by
  simp only [cancelDeal, bind, Option.bind_eq_some_iff, Checked.require_eq_some, Checked.add_eq_some,
    exists_const] at h
  obtain ⟨d, hd, hsender, e, ⟨-, rfl⟩, ⟨hclosed, hlt⟩, h⟩ := h
  obtain ⟨offers, heq, hoffers⟩ := release_spec (d.perEpoch * (d.endEpoch - (s.epoch + 1))) d.slots s
  rw [heq] at h
  cases h
  exact ⟨d, offers, hd, hsender, hclosed, hlt, rfl, hoffers⟩

end Loops

namespace Exact

theorem extended (h : s.Exact) (hext : s.extendDeal sender value id epochs = some s') : s'.Exact := by
  obtain ⟨d, offers, hd, -, -, -, -, -, rfl, hfits, hoffers⟩ := extendDeal_eq_some hext
  have hmarked := h.marked d (List.mem_of_getElem? hd)
  refine h.step { d with endEpoch := d.endEpoch + epochs, escrow := d.escrow + value } hd rfl rfl
    (fun p => ?_) (fun p => ?_) (h.single d (List.mem_of_getElem? hd)) ?_ rfl (fun p => ⟨?_, hfits p (h.fits p).2⟩)
  · have hadd := Deal.share_add (w := Deal.unpaid) (p := p) (k := d.perEpoch * epochs) d
      { d with endEpoch := d.endEpoch + epochs, escrow := d.escrow + value } rfl (fun x hx => by
        have := (hmarked x hx).2
        simp only [Deal.unpaid]
        rw [← Nat.mul_add]
        congr 1
        omega)
    rw [hadd]
    simp only [hoffers]
    omega
  · simp only [hoffers]
    rfl
  · intro x hx
    have := hmarked x hx
    simp only
    omega
  · simp only [hoffers]
    exact (h.fits p).1

theorem cancelled (h : s.Exact) (hcancel : s.cancelDeal sender id = some s') : s'.Exact := by
  obtain ⟨d, offers, hd, -, -, hlt, rfl, hoffers⟩ := cancelDeal_eq_some hcancel
  have hmarked := h.marked d (List.mem_of_getElem? hd)
  refine h.step { d with endEpoch := s.epoch + 1 } hd rfl rfl
    (fun p => ?_) (fun p => ?_) (h.single d (List.mem_of_getElem? hd)) ?_ rfl (h.fits_of_le fun p => ?_)
  · have hadd := Deal.share_add (w := Deal.unpaid) (p := p) (k := d.perEpoch * (d.endEpoch - (s.epoch + 1)))
      { d with endEpoch := s.epoch + 1 } d rfl (fun x hx => by
        have := (hmarked x hx).1
        simp only [Deal.unpaid]
        rw [← Nat.mul_add]
        congr 1
        omega)
    have hle : d.share Deal.unpaid p ≤ (s.offers p).committed := by
      rw [h.committed]
      exact share_le_held hd
    have hcopies : ({ d with endEpoch := s.epoch + 1 } : Deal).copies p = d.copies p := rfl
    rw [hcopies] at hadd
    simp only [hoffers]
    omega
  · simp only [hoffers]
    rfl
  · intro x hx
    have := hmarked x hx
    simp only
    omega
  · simp only [hoffers]
    omega

theorem refunded (h : s.Exact) (hrefund : s.refund id = some s') : s'.Exact := by
  simp only [refund, bind, Option.bind_eq_some_iff] at hrefund
  obtain ⟨d, hd, hdeposit⟩ := hrefund
  obtain ⟨-, balanceOf, rfl⟩ := deposit_spec hdeposit
  refine h.step { d with closed := true, escrow := 0 } hd rfl rfl (fun p => rfl) (fun p => rfl)
    (h.single d (List.mem_of_getElem? hd)) (h.marked d (List.mem_of_getElem? hd)) rfl h.fits

theorem move (h : s.Exact) (hmove : s.Move s') : s'.Exact := by
  cases hmove with
  | aside ha => exact h.aside ha
  | opened d hslots _ _ hpos _ _ => exact h.opened hslots hpos
  | pushed hd _ _ hfits hassign => exact h.pushed hd (holds_of_eligible hfits) hassign
  | refilled hd hsl hempty hfits hassign => exact h.refilled hd hsl hempty (holds_of_eligible hfits) hassign
  | paid hd hsl _ hopen hdue hpay => exact h.paid hd hsl hopen hdue hpay
  | dropped hd hsl hopen hdrop => exact h.dropped hd hsl hopen hdrop
  | cancelled hcancel => exact h.cancelled hcancel
  | refunded _ _ hrefund => exact h.refunded hrefund

theorem passes (h : s.Exact) (ht : Passes s s') : s'.Exact := by
  obtain ⟨epoch, now, hle, -, rfl⟩ := ht
  refine ⟨h.committed, h.usedMiB, h.single, fun d hd sl hsl => ?_, h.priced, h.fits⟩
  obtain ⟨hpaid, hend⟩ := h.marked d hd sl hsl
  exact ⟨hpaid.trans hle, hend⟩

end Exact

end Swarm

abbrev Reached (refuses : Address → Prop) : Swarm → Swarm → Prop :=
  Run refuses entry (fun _ _ => True) (fun _ _ => True) Passes

variable {refuses : Address → Prop} {s s₀ : Swarm}

theorem Reached.effects {s' : Swarm} {ops : List Op} (h : Reached refuses s₀ s)
    (hops : ∀ op ∈ ops, entry op = Call.update fun s => op.effect s) (heffects : ops.foldlM Op.effect s = some s') :
    Reached refuses s₀ s' := by
  induction ops generalizing s with
  | nil =>
    cases heffects
    exact h
  | cons op ops ih =>
    simp only [List.foldlM_cons, bind, Option.bind_eq_some_iff] at heffects
    obtain ⟨s₁, h₁, heffects⟩ := heffects
    refine ih (.call op h trivial ?_) (fun o ho => hops o (List.mem_cons_of_mem _ ho)) heffects
    rw [hops op List.mem_cons_self, Call.update, h₁]
    exact .ret s₁

theorem Reached.exact (h : Reached refuses s₀ s) (h₀ : s₀.Initial) : s.Exact := by
  refine h.invariant (fun op s hs _ => ?_) (fun s s' hs ht => hs.passes ht) (.initial h₀)
  exact ends_entry (fun _ _ => True) (.ofInvariant _) (fun s s' hs hm => hs.move hm)
    (fun s s' sender value id epochs hs _ he => hs.extended he) op s hs trivial

/-- In every run the aggregates of every offer are exact, so that what `_uncommit` and `_drop` take off is
there, and no provider holds two open copies of a deal. -/
theorem offer_accounting_exact (refuses : Address → Prop) (s₀ s : Swarm) (h₀ : s₀.Initial)
    (h : Reached refuses s₀ s) :
    (∀ p, (s.offers p).committed = s.held Deal.unpaid p ∧ (s.offers p).usedMiB = s.held (fun d _ => d.sizeMiB) p) ∧
      (∀ (id : Nat) (d : Deal), s.deals[id]? = some d → ∀ sl ∈ d.slots, sl.isOpen = true →
        d.unpaid sl ≤ (s.offers sl.provider).committed ∧ d.sizeMiB ≤ (s.offers sl.provider).usedMiB) ∧
      ∀ d ∈ s.deals, ∀ p, d.copies p ≤ 1 := by
  have hexact := h.exact h₀
  refine ⟨fun p => ⟨hexact.committed p, hexact.usedMiB p⟩, fun id d hd sl hsl hopen => ?_, hexact.single⟩
  exact ⟨hexact.unpaid_le hd hsl hopen, hexact.sizeMiB_le hd hsl hopen⟩

/-- Before the first deal; all validators are active and owned by one account. -/
def mock : Swarm where
  providers := []
  offers := fun _ => ⟨0, 0, 0, false, false, 0⟩
  offerIds := []
  deals := []
  balanceOf := fun _ => 0
  tasks := fun _ => []
  passes := fun _ => []
  validators := fun _ => ⟨7, true⟩
  epoch := 0
  now := 0
  balance := 0
  payments := []
  lost := fun _ => 0

theorem mock_initial : mock.Initial := ⟨rfl, fun _ => rfl, fun _ => rfl, rfl, Nat.le_refl _⟩

/-- A provider without stake takes a deal of five epochs, as much as it may without a bond. -/
def mockDeal : List Op :=
  [.registerStorage 1, .offerStorage 1 STORAGE_ID_BASE 1024 1,
    .createDeal 2 (5 * 10 ^ 18) 1 1 1 1 5 (1024 * 10 ^ 18) fun _ _ => 0]

theorem mockDeal_effects : ∀ op ∈ mockDeal, entry op = Call.update fun s => op.effect s := by
  simp only [mockDeal, List.forall_mem_cons]
  exact ⟨rfl, rfl, rfl, nofun⟩

theorem offer_accounting_exact_mock : ∃ s, Reached (fun _ => False) mock s ∧
    (s.offers STORAGE_ID_BASE).committed = 5 * 10 ^ 18 ∧ s.held Deal.unpaid STORAGE_ID_BASE = 5 * 10 ^ 18 := by
  have hcommitted : (mockDeal.foldlM Op.effect mock).map (fun s => (s.offers STORAGE_ID_BASE).committed) =
      some (5 * 10 ^ 18) := by
    decide +kernel
  obtain ⟨s, hs, hc⟩ := Option.map_eq_some_iff.1 hcommitted
  have hreached : Reached (fun _ => False) mock s := .effects (.refl mock) mockDeal_effects hs
  have hexact := (offer_accounting_exact _ mock s mock_initial hreached).1 STORAGE_ID_BASE
  exact ⟨s, hreached, hc, hexact.1.symm.trans hc⟩

end Boltchain.Contracts.SwarmStorage
