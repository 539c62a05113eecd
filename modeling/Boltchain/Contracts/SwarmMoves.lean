import Boltchain.Contracts.SwarmStorage

namespace Boltchain.Contracts.SwarmStorage

open Lib Lib.Ledger
open Lib.Reentry (Call Guarantee)
open Relation (ReflTransGen)

namespace Swarm

/-- Everything the contract owes: the escrows of all deals, the balances that can be withdrawn and the bonds. -/
def owed (s : Swarm) : Nat :=
  sumOf Deal.escrow s.deals + total s.balanceOf + sumOf StorageProvider.bond s.providers

def bondOf (s : Swarm) (p : Nat) : Nat := ((s.provider? p).map StorageProvider.bond).getD 0

variable {s s' s'' : Swarm} {id i p q amount value upTo : Nat} {d d' : Deal} {sl : Slot} {sp sp' : StorageProvider}
  {sender account : Address} {rand : Nat → Nat}

section Primitives

theorem provider?_eq_some : s.provider? p = some sp ↔ STORAGE_ID_BASE ≤ p ∧ s.providers[p - STORAGE_ID_BASE]? = some sp := by
  unfold provider?
  split
  case isTrue h => simp [h]
  case isFalse h => simp [h]

theorem provider?_setProvider (h : s.provider? p = some sp) (sp' : StorageProvider) (q : Nat) :
    (s.setProvider p sp').provider? q = if q = p then some sp' else s.provider? q := by
  obtain ⟨hbase, hget⟩ := provider?_eq_some.1 h
  obtain ⟨hlt, -⟩ := List.getElem?_eq_some_iff.1 hget
  unfold provider? setProvider
  by_cases hq : q = p
  · subst hq
    simp [hbase, List.getElem?_set_self hlt]
  · by_cases hqb : STORAGE_ID_BASE ≤ q
    · rw [if_pos hqb, if_neg hq, if_pos hqb, List.getElem?_set_ne (by omega)]
    · rw [if_neg hqb, if_neg hq, if_neg hqb]

theorem bondOf_setProvider (h : s.provider? p = some sp) (sp' : StorageProvider) (q : Nat) :
    (s.setProvider p sp').bondOf q = if q = p then sp'.bond else s.bondOf q := by
  unfold bondOf
  rw [provider?_setProvider h]
  split <;> rfl

theorem bondOf_of_provider? (h : s.provider? p = some sp) : s.bondOf p = sp.bond := by
  rw [bondOf, h]
  rfl

theorem provider?_of_live (hp : STORAGE_ID_BASE ≤ p) (h : s.live p = true) :
    ∃ sp, s.provider? p = some sp ∧ sp.active = true := by
  rw [live, if_pos hp] at h
  cases hsp : s.provider? p with
  | none => simp [hsp] at h
  | some sp => exact ⟨sp, rfl, by simpa [hsp] using h⟩

theorem owed_setProvider (h : s.provider? p = some sp) (sp' : StorageProvider) :
    (s.setProvider p sp').owed + sp.bond = s.owed + sp'.bond := by
  have := sumOf_set StorageProvider.bond (y := sp') (provider?_eq_some.1 h).2
  simp only [owed, setProvider] at *
  omega

theorem uncommit_offers (s : Swarm) (p amount q : Nat) : (s.uncommit p amount).offers q =
    if q = p then { s.offers p with committed := (s.offers p).committed - amount } else s.offers q := by
  have hsub : (if amount < (s.offers p).committed then (s.offers p).committed - amount else 0) =
      (s.offers p).committed - amount := by
    split <;> omega
  simp only [uncommit, setOffer, hsub, Function.update_apply]

theorem toBond_le {bond kept : Nat} (h : toBond bond amount = some kept) : kept ≤ amount := by
  unfold toBond at h
  split at h
  case isTrue =>
    simp only [bind, Option.bind_eq_some_iff, Checked.mul_eq_some] at h
    obtain ⟨share, ⟨-, rfl⟩, h⟩ := h
    have hle : amount * BOND_BPS / 10000 ≤ amount := by
      apply Nat.div_le_of_le_mul
      unfold BOND_BPS
      omega
    cases h
    split <;> omega
  case isFalse =>
    cases h
    exact Nat.zero_le _

theorem deposit_spec (h : s.deposit account amount = some s') :
    s'.owed = s.owed + amount ∧ ∃ balanceOf, s' = { s with balanceOf } := by
  simp only [deposit, bind, Option.bind_eq_some_iff, Checked.add_eq_some] at h
  obtain ⟨v, ⟨-, rfl⟩, h⟩ := h
  cases h
  have := total_update s.balanceOf account (s.balanceOf account + amount)
  refine ⟨?_, _, rfl⟩
  simp only [owed]
  omega

theorem credit_spec (h : s.credit p amount = some s') :
    s'.owed = s.owed + amount ∧ (∀ q, s.bondOf q ≤ s'.bondOf q) ∧
      ∃ providers balanceOf, s' = { s with providers, balanceOf } := by
  unfold credit at h
  split at h
  case isTrue =>
    simp only [bind, Option.bind_eq_some_iff] at h
    obtain ⟨sp, hsp, kept, hkept, h⟩ := h
    have hle := toBond_le hkept
    have hset := owed_setProvider hsp { sp with bond := sp.bond + kept }
    obtain ⟨howed, b, rfl⟩ := deposit_spec h
    refine ⟨?_, fun q => ?_, _, b, rfl⟩
    · simp only at hset
      omega
    · refine le_trans ?_ (le_of_eq (bondOf_setProvider hsp _ q).symm)
      split
      case isTrue hq =>
        subst hq
        rw [bondOf_of_provider? hsp]
        exact Nat.le_add_right _ _
      case isFalse => exact le_rfl
  case isFalse =>
    obtain ⟨howed, b, rfl⟩ := deposit_spec h
    exact ⟨howed, fun _ => le_rfl, s.providers, b, rfl⟩

end Primitives

/-- A step that touches no deal and neither aggregate of an offer. A bond shrinks by what is recorded as
lost, and the balance covers no less of what is owed. -/
structure Aside (s s' : Swarm) : Prop where
  deals : s'.deals = s.deals
  committed : ∀ p, (s'.offers p).committed = (s.offers p).committed
  usedMiB : ∀ p, (s'.offers p).usedMiB = (s.offers p).usedMiB
  epoch : s'.epoch = s.epoch
  payments : s'.payments = s.payments
  lost : ∀ p, s.lost p ≤ s'.lost p
  bonds : ∀ p, s.bondOf p + s.lost p ≤ s'.bondOf p + s'.lost p
  funds : s'.owed + s.balance ≤ s.owed + s'.balance

/-- What a call does to the deals is made of these steps; `extendDeal` is left out. -/
inductive Move (s : Swarm) : Swarm → Prop
  | aside {s' : Swarm} : s.Aside s' → Move s s'
  | opened (d : Deal) : d.slots = [] → d.closed = false → d.startEpoch = s.epoch →
      0 < d.perEpoch → d.perEpoch * (d.replicas * (d.endEpoch - d.startEpoch)) ≤ d.escrow → d.startEpoch ≤ d.endEpoch →
      Move s { s.receive d.escrow with deals := s.deals ++ [d] }
  | pushed {s' : Swarm} {id i who : Nat} {d : Deal} : s.deals[id]? = some d →
      d.slots.length < d.replicas → d.startEpoch = s.epoch →
      s.eligible d who (d.perEpoch * (d.endEpoch - s.epoch)) = some true →
      s.assign id i who s.epoch true = some s' → Move s s'
  | refilled {s' : Swarm} {id i who : Nat} {d : Deal} {sl : Slot} : s.deals[id]? = some d →
      d.slots[i]? = some sl → sl.isOpen = false →
      s.eligible d who (d.perEpoch * (d.endEpoch - s.epoch)) = some true →
      s.assign id i who s.epoch false = some s' → Move s s'
  | paid {s' : Swarm} {id i upTo : Nat} {d : Deal} {sl : Slot} : s.deals[id]? = some d → d.slots[i]? = some sl →
      d.closed = false → sl.isOpen = true → min upTo d.endEpoch ≤ s.epoch → s.pay id i upTo = some s' → Move s s'
  | dropped {s' : Swarm} {id i : Nat} {d : Deal} {sl : Slot} : s.deals[id]? = some d → d.slots[i]? = some sl →
      sl.isOpen = true → s.drop id i = some s' → Move s s'
  | cancelled {s' : Swarm} {sender : Address} {id : Nat} : s.cancelDeal sender id = some s' → Move s s'
  | refunded {s' : Swarm} {id : Nat} {d : Deal} : s.deals[id]? = some d → d.closed = false →
      s.refund id = some s' → Move s s'

abbrev Moves : Swarm → Swarm → Prop := ReflTransGen Move

namespace Aside

theorem of_offers {offers : Nat → Offer} {offerIds : List Nat} {tasks : Nat → List Task} {passes : Nat → List Nat}
    {validators : Nat → Standing} (hc : ∀ p, (offers p).committed = (s.offers p).committed)
    (hu : ∀ p, (offers p).usedMiB = (s.offers p).usedMiB) :
    s.Aside { s with offers, offerIds, tasks, passes, validators } :=
  ⟨rfl, hc, hu, rfl, rfl, fun _ => le_rfl, fun _ => le_rfl, le_rfl⟩

theorem setOffer {o : Offer} (offerIds : List Nat) (hc : o.committed = (s.offers p).committed)
    (hu : o.usedMiB = (s.offers p).usedMiB) : s.Aside ({ s with offerIds }.setOffer p o) := by
  apply of_offers
  · intro q
    by_cases hq : q = p
    · subst hq
      simpa using hc
    · simp [hq]
  · intro q
    by_cases hq : q = p
    · subst hq
      simpa using hu
    · simp [hq]

theorem setProvider (balance : Nat) (lost : Nat → Nat) (sp' : StorageProvider) (h : s.provider? p = some sp)
    (hlost : ∀ q, s.lost q ≤ lost q) (hbond : sp.bond + s.lost p ≤ sp'.bond + lost p)
    (hfunds : sp'.bond + s.balance ≤ sp.bond + balance) :
    s.Aside { s.setProvider p sp' with balance, lost } := by
  refine ⟨rfl, fun _ => rfl, fun _ => rfl, rfl, rfl, hlost, fun q => ?_, ?_⟩
  · have hq : ({ s.setProvider p sp' with balance, lost } : Swarm).bondOf q = if q = p then sp'.bond else s.bondOf q :=
      bondOf_setProvider h sp' q
    rw [hq]
    split
    case isTrue heq =>
      subst heq
      rw [bondOf_of_provider? h]
      exact hbond
    case isFalse => exact Nat.add_le_add_left (hlost q) _
  · have hset := owed_setProvider h sp'
    have howed : ({ s.setProvider p sp' with balance, lost } : Swarm).owed = (s.setProvider p sp').owed := rfl
    rw [howed]
    simp only
    omega

theorem loseBond (balance : Nat) (h : s.provider? p = some sp) (hbond : sp.bond ≤ sp'.bond + amount)
    (hfunds : sp'.bond + s.balance ≤ sp.bond + balance) :
    s.Aside { (s.setProvider p sp').lose p amount with balance } := by
  refine setProvider balance (Function.update s.lost p (s.lost p + amount)) sp' h (fun q => ?_) ?_ hfunds
  · rw [Function.update_apply]
    split
    case isTrue hq =>
      subst hq
      exact Nat.le_add_right _ _
    case isFalse => exact le_rfl
  · rw [Function.update_self]
    omega

theorem registerStorage (h : s.registerStorage account = some s') : s.Aside s' := by
  simp only [Swarm.registerStorage, bind, Option.bind_eq_some_iff] at h
  obtain ⟨-, -, h⟩ := h
  cases h
  refine ⟨rfl, fun _ => rfl, fun _ => rfl, rfl, rfl, fun _ => le_rfl, fun q => ?_, ?_⟩
  · refine Nat.add_le_add_right ?_ _
    unfold bondOf
    cases hq : s.provider? q with
    | none => exact Nat.zero_le _
    | some sp =>
      obtain ⟨hbase, hget⟩ := provider?_eq_some.1 hq
      have hsome : ({ s with providers := s.providers ++ [⟨account, true, 0, 0⟩] } : Swarm).provider? q = some sp :=
        provider?_eq_some.2 ⟨hbase, getElem?_concat_eq_some.2 (.inl hget)⟩
      rw [hsome]
  · simp only [owed, sumOf_append, sumOf_singleton]
    omega

theorem exitStorage (h : s.exitStorage sender id = some s') : s.Aside s' := by
  simp only [Swarm.exitStorage, bind, Option.bind_eq_some_iff, Checked.require_eq_some, exists_const] at h
  obtain ⟨sp, hsp, -, exitAt, -, h⟩ := h
  cases h
  exact setProvider s.balance s.lost _ hsp (fun _ => le_rfl) le_rfl le_rfl

theorem depositBond (h : s.depositBond value id = some s') : s.Aside s' := by
  simp only [Swarm.depositBond, bind, Option.bind_eq_some_iff, Checked.require_eq_some, Checked.add_eq_some,
    exists_const] at h
  obtain ⟨sp, hsp, -, bond, ⟨-, rfl⟩, h⟩ := h
  cases h
  refine setProvider (s.balance + value) s.lost _ hsp (fun _ => le_rfl) ?_ ?_
  · simp only
    omega
  · simp only
    omega

theorem offerStorage {capacityMiB minPrice : Nat} (h : s.offerStorage sender id capacityMiB minPrice = some s') :
    s.Aside s' := by
  simp only [Swarm.offerStorage, bind, Option.bind_eq_some_iff, Checked.require_eq_some, exists_const] at h
  obtain ⟨-, -, -, h⟩ := h
  cases h
  exact setOffer _ rfl rfl

theorem closeOffer (h : s.closeOffer sender id = some s') : s.Aside s' := by
  simp only [Swarm.closeOffer, bind, Option.bind_eq_some_iff, Checked.require_eq_some, exists_const] at h
  obtain ⟨-, h⟩ := h
  cases h
  exact setOffer s.offerIds rfl rfl

variable {epoch : Nat} {providers : List Nat}

theorem beginAudits {targets heights : List Nat}
    (h : s.beginAudits epoch providers targets heights = some s') : s.Aside s' := by
  simp only [Swarm.beginAudits, bind, Option.bind_eq_some_iff, Checked.require_eq_some, exists_const] at h
  obtain ⟨-, h⟩ := h
  cases h
  split <;> exact of_offers (fun _ => rfl) fun _ => rfl

theorem addDealAudits {dealIds indexes : List Nat}
    (h : s.addDealAudits epoch providers dealIds indexes = some s') : s.Aside s' := by
  simp only [Swarm.addDealAudits, bind, Option.bind_eq_some_iff, Checked.require_eq_some, exists_const] at h
  obtain ⟨-, h⟩ := h
  cases h
  exact of_offers (fun _ => rfl) fun _ => rfl

theorem setTask (s : Swarm) (epoch k : Nat) (t : Task) : s.Aside (s.setTask epoch k t) :=
  of_offers (fun _ => rfl) fun _ => rfl

theorem pass (s : Swarm) (epoch k : Nat) (t : Task) : s.Aside (s.pass epoch k t) := by
  unfold Swarm.pass
  split <;> exact of_offers (fun _ => rfl) fun _ => rfl

theorem penalizeStorage (h : s.penalizeStorage id = some s') : s.Aside s' := by
  unfold Swarm.penalizeStorage at h
  split at h
  case h_1 =>
    cases h
    exact of_offers (fun _ => rfl) fun _ => rfl
  case h_2 sp hsp =>
    simp only [bind, Option.bind_eq_some_iff, Checked.mul_eq_some] at h
    obtain ⟨share, ⟨-, rfl⟩, exitAt, -, h⟩ := h
    cases h
    refine loseBond s.balance hsp ?_ ?_
    · simp only
      omega
    · simp only
      omega

end Aside

section Effects

theorem eligible_eq_true {c : Nat} : s.eligible d c value = some true ↔ (s.offers c).isOpen = true ∧
    (s.offers c).minPrice ≤ d.price ∧ (s.offers c).usedMiB + d.sizeMiB < 2 ^ 64 ∧
    (s.offers c).usedMiB + d.sizeMiB ≤ (s.offers c).capacityMiB ∧ s.live c = true ∧
    s.withinLimit c value = some true ∧ d.holds c = false := by
  simp only [eligible]
  by_cases hclosed : (s.offers c).isOpen = false ∨ d.price < (s.offers c).minPrice
  · rw [if_pos hclosed]
    refine ⟨nofun, fun ⟨hopen, hprice, _⟩ => ?_⟩
    obtain h | h := hclosed
    · simp [h] at hopen
    · omega
  · rw [if_neg hclosed]
    simp only [not_or, Bool.not_eq_false, Nat.not_lt] at hclosed
    simp only [bind, Option.bind_eq_some_iff, Checked.add_eq_some, hclosed.1, hclosed.2, true_and]
    constructor
    · rintro ⟨used, ⟨hlt, rfl⟩, h⟩
      split at h
      case isTrue => cases h
      case isFalse hfull =>
        simp only [not_or, Nat.not_lt, Bool.not_eq_false] at hfull
        simp only [Option.bind_eq_some_iff, Option.some.injEq, Bool.and_eq_true, Bool.not_eq_true'] at h
        obtain ⟨within, hwithin, rfl, hholds⟩ := h
        exact ⟨hlt, hfull.1, hfull.2, hwithin, hholds⟩
    · rintro ⟨hlt, hroom, hlive, hwithin, hholds⟩
      refine ⟨_, ⟨hlt, rfl⟩, ?_⟩
      rw [if_neg (by simp [hlive, Nat.not_lt.2 hroom]), hwithin]
      simp [hholds]

variable {who : Nat}

theorem drawFrom_eq_some {n t : Nat} (h : s.drawFrom d value rand n t = some (some who)) :
    who ∈ s.offerIds ∧ s.eligible d who value = some true := by
  induction n generalizing t with
  | zero => cases h
  | succ n ih =>
    simp only [drawFrom, bind, Option.bind_eq_some_iff] at h
    obtain ⟨c, hc, fits, hfits, h⟩ := h
    cases fits with
    | true =>
      cases h
      exact ⟨List.mem_of_getElem? hc, hfits⟩
    | false => exact ih h

variable {since : Nat}

theorem draw_eq_some (h : s.draw d since rand = some (some who)) :
    who ∈ s.offerIds ∧ s.eligible d who (d.perEpoch * (d.endEpoch - since)) = some true := by
  unfold draw at h
  split at h
  case isTrue => cases h
  case isFalse =>
    simp only [bind, Option.bind_eq_some_iff, Checked.sub_eq_some] at h
    obtain ⟨span, ⟨-, rfl⟩, h⟩ := h
    exact drawFrom_eq_some h

variable {push : Bool}

theorem place_eq_some (h : s.place id i rand push = some s') : ∃ d who, s.deals[id]? = some d ∧
    s.eligible d who (d.perEpoch * (d.endEpoch - s.epoch)) = some true ∧ s.assign id i who s.epoch push = some s' := by
  simp only [place, bind, Option.bind_eq_some_iff] at h
  obtain ⟨d, hd, found, hfound, who, rfl, h⟩ := h
  exact ⟨d, who, hd, (draw_eq_some hfound).2, h⟩

theorem assign_eq_some : s.assign id i who since push = some s' ↔
    ∃ d, s.deals[id]? = some d ∧ since ≤ d.endEpoch ∧ (s.offers who).usedMiB + d.sizeMiB < 2 ^ 64 ∧
      (s.offers who).committed + d.perEpoch * (d.endEpoch - since) < 2 ^ 256 ∧ s' = (s.setDeal id { d with
      slots := if push then d.slots ++ [⟨who, since, since, true⟩] else d.slots.set i ⟨who, since, since, true⟩ }).setOffer
        who { s.offers who with
          usedMiB := (s.offers who).usedMiB + d.sizeMiB
          committed := (s.offers who).committed + d.perEpoch * (d.endEpoch - since) } := by
  simp only [assign, bind, Option.bind_eq_some_iff, Checked.add_eq_some, Checked.sub_eq_some]
  constructor
  · rintro ⟨d, hd, used, ⟨hused, rfl⟩, span, ⟨hle, rfl⟩, committed, ⟨hcommitted, rfl⟩, h⟩
    cases h
    exact ⟨d, hd, hle, hused, hcommitted, rfl⟩
  · rintro ⟨d, hd, hle, hused, hcommitted, rfl⟩
    exact ⟨d, hd, _, ⟨hused, rfl⟩, _, ⟨hle, rfl⟩, _, ⟨hcommitted, rfl⟩, rfl⟩

theorem moves_fill {n k : Nat} {rand : Nat → Nat → Nat} (hd : s.deals[id]? = some d) (hlen : d.slots.length = k)
    (hk : k + n ≤ d.replicas) (hstart : d.startEpoch = s.epoch)
    (h : (List.range' k n).foldlM (fill id rand) s = some s') : s.Moves s' := by
  induction n generalizing s d k with
  | zero =>
    cases h
    exact .refl
  | succ n ih =>
    simp only [List.range'_succ, List.foldlM_cons, bind, Option.bind_eq_some_iff] at h
    obtain ⟨s₁, h₁, h⟩ := h
    obtain ⟨d₀, who, hd₀, hfits, hassign⟩ := place_eq_some h₁
    obtain rfl : d = d₀ := Option.some.inj (hd.symm.trans hd₀)
    have hmove : s.Move s₁ := .pushed hd (by omega) hstart hfits hassign
    obtain ⟨d₀, hd₀, -, -, -, rfl⟩ := assign_eq_some.1 hassign
    obtain rfl : d = d₀ := Option.some.inj (hd.symm.trans hd₀)
    refine .head hmove (ih (d := { d with slots := d.slots ++ [⟨who, s.epoch, s.epoch, true⟩] }) ?_ ?_ ?_ hstart h)
    · exact List.getElem?_set_self (List.getElem?_eq_some_iff.1 hd).1
    · simp [hlen]
    · simp only
      omega

theorem moves_createDeal {rootLength blocks size replicas epochs price : Nat} {rand : Nat → Nat → Nat}
    (h : s.createDeal sender value rootLength blocks size replicas epochs price rand = some s') : s.Moves s' := by
  simp only [createDeal, bind, Option.bind_eq_some_iff, Checked.require_eq_some, Checked.add_eq_some,
    exists_const] at h
  obtain ⟨-, ⟨-, -, hsize, -, -, -, -, hprice⟩, -, hcost, endEpoch, ⟨-, rfl⟩, h⟩ := h
  rw [List.range_eq_range'] at h
  refine .head (.opened (⟨sender, replicas, false, (size + (2 ^ 20 - 1)) / 2 ^ 20, s.epoch, s.epoch + epochs, price,
    (price * ((size + (2 ^ 20 - 1)) / 2 ^ 20) + 1023) / 1024, value, []⟩ : Deal) rfl rfl rfl ?_ ?_ ?_) ?_
  · have hmib : 1 ≤ (size + (2 ^ 20 - 1)) / 2 ^ 20 := by omega
    have hmul : 1 * 1 ≤ price * ((size + (2 ^ 20 - 1)) / 2 ^ 20) := Nat.mul_le_mul (by omega) hmib
    refine Nat.div_pos ?_ (by decide)
    omega
  · simp only [Nat.add_sub_cancel_left]
    rw [← Nat.mul_assoc]
    exact hcost
  · exact Nat.le_add_right _ _
  · exact moves_fill (getElem?_concat_eq_some.2 (.inr ⟨rfl, rfl⟩)) rfl (by simp) rfl h

theorem drop_eq_some (h : s.drop id i = some s') : ∃ d sl, s.deals[id]? = some d ∧ d.slots[i]? = some sl ∧
    s' = ((s.setDeal id { d with slots := d.slots.set i { sl with isOpen := false } }).setOffer sl.provider
      { s.offers sl.provider with
        usedMiB := if d.sizeMiB < (s.offers sl.provider).usedMiB then (s.offers sl.provider).usedMiB - d.sizeMiB else 0
        }).uncommit sl.provider
          (if sl.paidThrough < d.endEpoch then d.perEpoch * (d.endEpoch - sl.paidThrough) else 0) := by
  simp only [drop, bind, Option.bind_eq_some_iff] at h
  obtain ⟨d, hd, sl, hsl, h⟩ := h
  cases h
  exact ⟨d, sl, hd, hsl, rfl⟩

theorem pay_eq_some (h : s.pay id i upTo = some s') : ∃ d sl, s.deals[id]? = some d ∧ d.slots[i]? = some sl ∧
    (s' = s ∨ sl.paidThrough < min upTo d.endEpoch ∧
      d.perEpoch * (min upTo d.endEpoch - sl.paidThrough) ≤ d.escrow ∧
      (((s.setDeal id { d with
          escrow := d.escrow - d.perEpoch * (min upTo d.endEpoch - sl.paidThrough)
          slots := d.slots.set i { sl with paidThrough := min upTo d.endEpoch } }).uncommit sl.provider
        (d.perEpoch * (min upTo d.endEpoch - sl.paidThrough))).paid
        ⟨id, i, sl.paidThrough, min upTo d.endEpoch⟩).credit sl.provider
        (d.perEpoch * (min upTo d.endEpoch - sl.paidThrough)) = some s') := by
  simp only [pay, bind, Option.bind_eq_some_iff] at h
  obtain ⟨d, hd, sl, hsl, h⟩ := h
  have hmin : (if upTo < d.endEpoch then upTo else d.endEpoch) = min upTo d.endEpoch := by
    split <;> omega
  rw [hmin] at h
  refine ⟨d, sl, hd, hsl, ?_⟩
  split at h
  case isTrue =>
    cases h
    exact .inl rfl
  case isFalse hlt =>
    simp only [Option.bind_eq_some_iff, Checked.sub_eq_some] at h
    obtain ⟨escrow, ⟨hle, rfl⟩, h⟩ := h
    exact .inr ⟨Nat.not_le.1 hlt, hle, h⟩

theorem pay_deal (hd : s.deals[id]? = some d) (hsl : d.slots[i]? = some sl) (h : s.pay id i upTo = some s') :
    s'.epoch = s.epoch ∧ s'.validators = s.validators ∧ ∃ d' sl', s'.deals[id]? = some d' ∧ d'.slots[i]? = some sl' ∧
      d'.closed = d.closed ∧ d'.endEpoch = d.endEpoch ∧ d'.slots.length = d.slots.length ∧
      sl'.isOpen = sl.isOpen ∧ sl'.provider = sl.provider := by
  obtain ⟨d₀, sl₀, hd₀, hsl₀, rfl | ⟨-, -, h⟩⟩ := pay_eq_some h
  · exact ⟨rfl, rfl, d, sl, hd, hsl, rfl, rfl, rfl, rfl, rfl⟩
  · obtain rfl : d = d₀ := Option.some.inj (hd.symm.trans hd₀)
    obtain rfl : sl = sl₀ := Option.some.inj (hsl.symm.trans hsl₀)
    obtain ⟨-, -, providers, balanceOf, rfl⟩ := credit_spec h
    refine ⟨rfl, rfl, _, { sl with paidThrough := min upTo d.endEpoch },
      List.getElem?_set_self (List.getElem?_eq_some_iff.1 hd).1,
      List.getElem?_set_self (List.getElem?_eq_some_iff.1 hsl).1, rfl, rfl, List.length_set, rfl, rfl⟩

theorem moves_closeSlot (hd : s.deals[id]? = some d) (hclosed : d.closed = false) (hend : d.endEpoch ≤ s.epoch)
    (h : s.closeSlot id i = some s') :
    s.Moves s' ∧ s'.epoch = s.epoch ∧ ∃ d', s'.deals[id]? = some d' ∧ d'.closed = false ∧ d'.endEpoch = d.endEpoch := by
  simp only [closeSlot, bind, Option.bind_eq_some_iff] at h
  obtain ⟨d₀, hd₀, sl, hsl, h⟩ := h
  obtain rfl : d = d₀ := Option.some.inj (hd.symm.trans hd₀)
  split at h
  case isFalse =>
    cases h
    exact ⟨.refl, rfl, d, hd, hclosed, rfl⟩
  case isTrue hopen =>
    simp only [Option.bind_eq_some_iff] at h
    obtain ⟨s₁, h₁, h⟩ := h
    have hpaid : s.Moves s₁ ∧ s₁.epoch = s.epoch ∧ ∃ d₁ sl₁, s₁.deals[id]? = some d₁ ∧ d₁.slots[i]? = some sl₁ ∧
        d₁.closed = d.closed ∧ d₁.endEpoch = d.endEpoch ∧ sl₁.isOpen = sl.isOpen := by
      unfold settle at h₁
      split at h₁
      case isTrue =>
        have hmove : s.Move s₁ := .paid hd hsl hclosed hopen (by omega) h₁
        obtain ⟨hepoch, -, d₁, sl₁, hd₁, hsl₁, hc, he, -, ho, -⟩ := pay_deal hd hsl h₁
        exact ⟨.single hmove, hepoch, d₁, sl₁, hd₁, hsl₁, hc, he, ho⟩
      case isFalse =>
        cases h₁
        exact ⟨.refl, rfl, d, sl, hd, hsl, rfl, rfl, rfl⟩
    obtain ⟨hmoves, hepoch, d₁, sl₁, hd₁, hsl₁, hc, he, ho⟩ := hpaid
    have hmove : s₁.Move s' := .dropped hd₁ hsl₁ (ho.trans hopen) h
    obtain ⟨d₂, sl₂, hd₂, -, rfl⟩ := drop_eq_some h
    obtain rfl : d₁ = d₂ := Option.some.inj (hd₁.symm.trans hd₂)
    exact ⟨hmoves.tail hmove, hepoch, _, List.getElem?_set_self (List.getElem?_eq_some_iff.1 hd₁).1, hc.trans hclosed, he⟩

theorem moves_closeSlots {l : List Nat} (hd : s.deals[id]? = some d) (hclosed : d.closed = false)
    (hend : d.endEpoch ≤ s.epoch) (h : l.foldlM (closeSlot id) s = some s') :
    s.Moves s' ∧ ∃ d', s'.deals[id]? = some d' ∧ d'.closed = false := by
  induction l generalizing s d with
  | nil =>
    cases h
    exact ⟨.refl, d, hd, hclosed⟩
  | cons i l ih =>
    simp only [List.foldlM_cons, bind, Option.bind_eq_some_iff] at h
    obtain ⟨s₁, h₁, h⟩ := h
    obtain ⟨hmoves, hepoch, d₁, hd₁, hc₁, he₁⟩ := moves_closeSlot hd hclosed hend h₁
    obtain ⟨hmoves', hd'⟩ := ih hd₁ hc₁ (by omega) h
    exact ⟨hmoves.trans hmoves', hd'⟩

theorem moves_closeDeal (h : s.closeDeal id = some s') : s.Moves s' := by
  simp only [closeDeal, bind, Option.bind_eq_some_iff, Checked.require_eq_some, exists_const] at h
  obtain ⟨d, hd, hclosed, hend, s₁, h₁, h⟩ := h
  obtain ⟨hmoves, d₁, hd₁, hc₁⟩ := moves_closeSlots hd hclosed hend h₁
  exact hmoves.tail (.refunded hd₁ hc₁ h)

theorem moves_claim (h : s.claim id i = some s') : s.Moves s' := by
  simp only [claim, bind, Option.bind_eq_some_iff, Checked.require_eq_some, exists_const] at h
  obtain ⟨d, hd, sl, hsl, ⟨hopen, hclosed⟩, -, h⟩ := h
  exact .single (.paid hd hsl hclosed hopen (Nat.min_le_left _ _) h)

theorem drop_empty (h : s.drop id i = some s') : ∃ d sl, s'.deals[id]? = some d ∧ d.slots[i]? = some sl ∧
    sl.isOpen = false := by
  obtain ⟨d, sl, hd, hsl, rfl⟩ := drop_eq_some h
  exact ⟨_, _, List.getElem?_set_self (List.getElem?_eq_some_iff.1 hd).1,
    List.getElem?_set_self (List.getElem?_eq_some_iff.1 hsl).1, rfl⟩

theorem moves_repair (h : s.repair id i rand = some s') : s.Moves s' := by
  simp only [repair, bind, Option.bind_eq_some_iff, Checked.require_eq_some, exists_const] at h
  obtain ⟨d, hd, -, sl, hsl, s₁, h₁, h⟩ := h
  obtain ⟨d₁, who, hd₁, hfits, hassign⟩ := place_eq_some h
  unfold vacate at h₁
  split at h₁
  case isTrue hopen =>
    simp only [bind, Option.bind_eq_some_iff, Checked.require_eq_some, exists_const] at h₁
    obtain ⟨-, h₁⟩ := h₁
    obtain ⟨d₂, sl₂, hd₂, hsl₂, hempty⟩ := drop_empty h₁
    obtain rfl : d₁ = d₂ := Option.some.inj (hd₁.symm.trans hd₂)
    exact .head (.dropped hd hsl hopen h₁) (.single (.refilled hd₁ hsl₂ hempty hfits hassign))
  case isFalse hopen =>
    cases h₁
    obtain rfl : d = d₁ := Option.some.inj (hd.symm.trans hd₁)
    exact .single (.refilled hd hsl (Bool.eq_false_iff.2 hopen) hfits hassign)

theorem copyOf_eq_some (h : copyOf d p = some i) :
    ∃ sl, d.slots[i]? = some sl ∧ sl.isOpen = true ∧ sl.provider = p := by
  obtain ⟨hlt, hp, -⟩ := List.findIdx?_eq_some_iff_getElem.1 h
  simp only [Bool.and_eq_true, beq_iff_eq] at hp
  exact ⟨_, List.getElem?_eq_getElem hlt, hp.1, hp.2⟩

theorem moves_failCopy (h : s.failCopy id p rand = some s') : s.Moves s' := by
  unfold failCopy at h
  split at h
  case h_1 =>
    cases h
    exact .refl
  case h_2 d hd =>
    split at h
    case isTrue =>
      cases h
      exact .refl
    case isFalse =>
      split at h
      case h_1 =>
        cases h
        exact .refl
      case h_2 i hi =>
        simp only [bind, Option.bind_eq_some_iff] at h
        obtain ⟨s₁, h₁, h⟩ := h
        obtain ⟨sl, hsl, hopen, -⟩ := copyOf_eq_some hi
        have hdrop : s.Move s₁ := .dropped hd hsl hopen h₁
        obtain ⟨d₁, sl₁, hd₁, hsl₁, hempty⟩ := drop_empty h₁
        simp only [replace, bind, Option.bind_eq_some_iff] at h
        obtain ⟨d₂, hd₂, h⟩ := h
        obtain rfl : d₁ = d₂ := Option.some.inj (hd₁.symm.trans hd₂)
        split at h
        case isFalse =>
          cases h
          exact .single hdrop
        case isTrue =>
          simp only [Option.bind_eq_some_iff] at h
          obtain ⟨found, hfound, h⟩ := h
          cases found with
          | none =>
            cases h
            exact .single hdrop
          | some who => exact .head hdrop (.single (.refilled hd₁ hsl₁ hempty (draw_eq_some hfound).2 h))

end Effects

end Swarm

/-- Every call but `extendDeal` that hands control to nobody. -/
theorem Op.effect_moves {s s' : Swarm} {op : Op} (hop : ∀ sender value id epochs, op ≠ .extendDeal sender value id epochs)
    (h : op.effect s = some s') : s.Moves s' := by
  cases op with
  | extendDeal sender value id epochs => exact absurd rfl (hop sender value id epochs)
  | registerStorage account => exact .single (.aside (.registerStorage h))
  | exitStorage sender id => exact .single (.aside (.exitStorage h))
  | depositBond value id => exact .single (.aside (.depositBond h))
  | offerStorage sender id capacityMiB minPrice => exact .single (.aside (.offerStorage h))
  | closeOffer sender id => exact .single (.aside (.closeOffer h))
  | createDeal sender value rootLength blocks size replicas epochs price rand => exact Swarm.moves_createDeal h
  | cancelDeal sender id => exact .single (.cancelled h)
  | claim id i => exact Swarm.moves_claim h
  | closeDeal id => exact Swarm.moves_closeDeal h
  | repair id i rand => exact Swarm.moves_repair h
  | beginAudits epoch providers targets heights => exact .single (.aside (.beginAudits h))
  | addDealAudits epoch providers dealIds indexes => exact .single (.aside (.addDealAudits h))
  | standing id v =>
    cases h
    exact .single (.aside (.of_offers (fun _ => rfl) fun _ => rfl))
  | forced value =>
    cases h
    refine .single (.aside ⟨rfl, fun _ => rfl, fun _ => rfl, rfl, rfl, fun _ => le_rfl, fun _ => le_rfl, ?_⟩)
    exact Nat.add_le_add_left (Nat.le_add_right s.balance value) s.owed
  | releaseStorageBond id =>
    cases h
    exact .refl
  | depositEarnings value id =>
    cases h
    exact .refl
  | withdraw sender dest =>
    cases h
    exact .refl
  | payout account =>
    cases h
    exact .refl
  | recordAudit epoch k ok coinbase rand =>
    cases h
    exact .refl

section Guarantees

variable {refuses : Address → Prop} {P : Swarm → Prop} {G : Swarm → Swarm → Prop}

variable {s : Swarm}

theorem Swarm.Moves.guarantees {s' : Swarm} (hG : Guarantee P G) (hmove : ∀ s s', P s → s.Move s' → G s s')
    (h : s.Moves s') (hs : P s) : G s s' := by
  induction h with
  | refl => exact hG.refl s hs
  | tail _ h ih => exact hG.trans _ _ _ ih (hmove _ _ (hG.post _ _ ih) h)

variable {dest : Address}

theorem ends_transfer {s₀ : Swarm} {amount : Nat} (hG : Guarantee P G)
    (h : ∀ balance, balance + amount = s.balance → G s₀ { s with balance }) :
    ((transfer dest amount : Call Address Swarm Unit) s).Ends refuses P G fun _ => G s₀ := by
  simp only [transfer, Call.ends_bind, Call.ends_require]
  refine Call.ends_send (fun sent hsent => ?_) (fun _ h => by cases h) fun _ h => by cases h
  obtain ⟨balance, hb, rfl⟩ := Option.map_eq_some_iff.1 hsent
  obtain ⟨hle, rfl⟩ := Checked.sub_eq_some.1 hb
  have hsent := h (s.balance - amount) (by omega)
  exact ⟨hG.post _ _ hsent, fun s' hs' _ => hG.trans _ _ _ hsent hs'⟩

theorem ends_withdraw {source : Address} (hG : Guarantee P G)
    (hmove : ∀ s s', P s → s.Move s' → G s s') (hs : P s) :
    ((withdraw source dest : Call Address Swarm Unit) s).Ends refuses P G fun _ => G s := by
  simp only [withdraw, Call.ends_bind, Call.ends_get, Call.ends_set]
  refine ends_transfer hG fun balance hb => hmove _ _ hs (.aside ?_)
  refine ⟨rfl, fun _ => rfl, fun _ => rfl, rfl, rfl, fun _ => le_rfl, fun _ => le_rfl, ?_⟩
  have := total_update s.balanceOf source 0
  simp only [Swarm.owed] at *
  omega

variable {id : Nat}

theorem ends_releaseStorageBond (hG : Guarantee P G)
    (hmove : ∀ s s', P s → s.Move s' → G s s') (hs : P s) :
    ((releaseStorageBond id : Call Address Swarm Unit) s).Ends refuses P G fun _ => G s := by
  simp only [releaseStorageBond, Call.ends_bind, Call.ends_get, Call.ends_lift, Call.ends_require, Call.ends_set]
  intro sp hsp _
  refine ends_transfer hG fun balance hb => hmove _ _ hs (.aside ?_)
  refine .loseBond _ hsp ?_ ?_
  · simp only
    omega
  · simp only [Swarm.lose, Swarm.setProvider] at hb ⊢
    omega

theorem ends_depositEarnings {value : Nat} (hG : Guarantee P G)
    (hmove : ∀ s s', P s → s.Move s' → G s s') (hs : P s) :
    ((depositEarnings value id : Call Address Swarm Unit) s).Ends refuses P G fun _ => G s := by
  simp only [depositEarnings, Call.ends_bind, Call.ends_get, Call.ends_lift, Call.ends_set]
  intro sp hsp kept hkept
  have hle := Swarm.toBond_le hkept
  refine ends_transfer hG fun balance hb => hmove _ _ hs (.aside ?_)
  refine .setProvider (s := s) balance s.lost { sp with bond := sp.bond + kept } hsp
    (fun _ => le_rfl) ?_ ?_
  · simp only
    omega
  · simp only [Swarm.receive, Swarm.setProvider] at hb ⊢
    omega

variable {coinbase : Address}

theorem ends_penalize (s₀ : Swarm) {p : Nat} (hG : Guarantee P G)
    (hmove : ∀ s s', P s → s.Move s' → G s s') (hs : G s₀ s) :
    ((penalize p coinbase : Call Address Swarm Unit) s).Ends refuses P G fun _ => G s₀ := by
  unfold penalize
  have hP := hG.post _ _ hs
  split
  case isTrue =>
    simp only [Call.ends_update]
    intro s' hs'
    exact hG.trans _ _ _ hs (hmove _ _ hP (.aside (.penalizeStorage hs')))
  case isFalse =>
    simp only [Call.ends_bind, Call.ends_pure]
    refine Call.ends_send (fun sent hsent => ?_) (fun _ => hs) fun _ => hs
    cases hsent
    exact ⟨hP, fun s' hs' => hG.trans _ _ _ hs hs'⟩

theorem ends_recordAudit {epoch k : Nat} {decision : Bool} {rand : Nat → Nat}
    (hG : Guarantee P G) (hmove : ∀ s s', P s → s.Move s' → G s s') (hs : P s) :
    ((recordAudit epoch k decision coinbase rand : Call Address Swarm Unit) s).Ends refuses P G fun _ => G s := by
  simp only [recordAudit, Call.ends_bind, Call.ends_get, Call.ends_lift]
  intro t ht
  split
  case isTrue => exact hG.refl s hs
  case isFalse =>
    split
    case isTrue => exact hmove _ _ hs (.aside (.pass s epoch k t))
    case isFalse =>
      simp only [Call.ends_bind, Call.ends_set]
      refine (ends_penalize s hG hmove (hmove _ _ hs (.aside (.setTask s epoch k _)))).mono fun _ s₁ hs₁ => ?_
      split
      case isTrue =>
        simp only [Call.ends_update]
        intro s₂ hs₂
        exact hG.trans _ _ _ hs₁ ((Swarm.moves_failCopy hs₂).guarantees hG hmove (hG.post _ _ hs₁))
      case isFalse => exact hs₁

theorem ends_entry (ok : Op → Swarm → Prop) (hG : Guarantee P G) (hmove : ∀ s s', P s → s.Move s' → G s s')
    (hextend : ∀ s s' sender value id epochs, P s → ok (.extendDeal sender value id epochs) s →
      s.extendDeal sender value id epochs = some s' → G s s') (op : Op) (s : Swarm) (hs : P s) (hok : ok op s) :
    (entry op s).Ends refuses P G fun _ => G s := by
  have heffect (hop : ∀ sender value id epochs, op ≠ .extendDeal sender value id epochs) :
      ((Call.update fun s => op.effect s : Call Address Swarm Unit) s).Ends refuses P G fun _ => G s := by
    rw [Call.ends_update]
    intro s' hs'
    exact (op.effect_moves hop hs').guarantees hG hmove hs
  cases op with
  | releaseStorageBond id => exact ends_releaseStorageBond hG hmove hs
  | depositEarnings value id => exact ends_depositEarnings hG hmove hs
  | withdraw sender dest => exact ends_withdraw hG hmove hs
  | payout account => exact ends_withdraw hG hmove hs
  | recordAudit epoch k ok coinbase rand => exact ends_recordAudit hG hmove hs
  | extendDeal sender value id epochs =>
    have h : ((Call.update fun s => s.extendDeal sender value id epochs : Call Address Swarm Unit) s).Ends refuses P G
        fun _ => G s := Call.ends_update.2 fun s' hs' => hextend s s' sender value id epochs hs hok hs'
    exact h
  | _ => exact heffect fun _ _ _ _ => nofun

end Guarantees

end Boltchain.Contracts.SwarmStorage
