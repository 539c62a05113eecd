import Boltchain.Contracts.SwarmOffers

namespace Boltchain.Contracts.SwarmStorage

open Lib Lib.Ledger
open Lib.Reentry (Call Guarantee Finishes)

namespace Swarm

def limit (s : Swarm) (p : Nat) : Nat := COMMIT_BASE + COMMIT_BOND_MULT * s.bondOf p

/-- By how much the unpaid deal value `p` holds exceeds the limit. -/
def excess (s : Swarm) (p : Nat) : Nat := (s.offers p).committed - s.limit p

/-- Between the two states the excess of `p` has grown only as its bond has shrunk. -/
structure Bounded (p : Nat) (s s' : Swarm) : Prop where
  exact : s'.Exact
  lost : s.lost p ≤ s'.lost p
  excess : s'.excess p ≤ s.excess p + COMMIT_BOND_MULT * (s'.lost p - s.lost p)

variable {s s' : Swarm} {id i p who amount value epochs : Nat} {d : Deal} {sl : Slot} {sender : Address}

theorem bounded_guarantee (p : Nat) : Guarantee Exact (Bounded p) := by
  constructor
  · intro s hs
    exact ⟨hs, le_rfl, Nat.le_add_right _ _⟩
  · intro s₁ s₂ s₃ h h'
    have h₁ := h.lost
    have h₂ := h'.lost
    have h₃ := h.excess
    have h₄ := h'.excess
    refine ⟨h'.exact, h₁.trans h₂, ?_⟩
    unfold COMMIT_BOND_MULT at *
    omega
  · intro s s' h
    exact h.exact

theorem Bounded.of_le (hexact : s'.Exact) (hlost : s'.lost = s.lost) (hbond : s.bondOf p ≤ s'.bondOf p)
    (hc : (s'.offers p).committed ≤ (s.offers p).committed ∨ (s'.offers p).committed ≤ s.limit p) : s.Bounded p s' := by
  refine ⟨hexact, by rw [hlost], ?_⟩
  unfold Swarm.excess limit at *
  unfold COMMIT_BOND_MULT at *
  omega

theorem Bounded.aside (h : s.Exact) (ha : s.Aside s') : s.Bounded p s' := by
  refine ⟨h.aside ha, ha.lost p, ?_⟩
  have hbonds := ha.bonds p
  have hlost := ha.lost p
  unfold Swarm.excess limit
  rw [ha.committed]
  unfold COMMIT_BOND_MULT
  omega

theorem within_of_eligible (hp : STORAGE_ID_BASE ≤ p) (h : s.eligible d p value = some true) :
    (s.offers p).committed + value ≤ s.limit p := by
  obtain ⟨-, -, -, -, hlive, hwithin, -⟩ := eligible_eq_true.1 h
  obtain ⟨sp, hsp, -⟩ := provider?_of_live hp hlive
  simp only [withinLimit, hsp, bind, Option.bind_eq_some_iff, Checked.add_eq_some, Checked.mul_eq_some,
    Option.some.injEq, decide_eq_true_eq] at hwithin
  obtain ⟨_, ⟨-, rfl⟩, _, ⟨-, rfl⟩, _, ⟨-, rfl⟩, hle⟩ := hwithin
  rw [limit, bondOf_of_provider? hsp]
  exact hle

theorem Bounded.assigned {push : Bool} (hp : STORAGE_ID_BASE ≤ p) (hexact : s'.Exact) (hd : s.deals[id]? = some d)
    (hfits : s.eligible d who (d.perEpoch * (d.endEpoch - s.epoch)) = some true)
    (h : s.assign id i who s.epoch push = some s') : s.Bounded p s' := by
  obtain ⟨d₀, hd₀, -, -, -, rfl⟩ := assign_eq_some.1 h
  obtain rfl : d = d₀ := Option.some.inj (hd.symm.trans hd₀)
  refine .of_le hexact rfl le_rfl ?_
  by_cases hwho : p = who
  · subst hwho
    right
    simp only [setOffer, Function.update_self]
    exact within_of_eligible hp hfits
  · left
    simp only [setOffer, setDeal, Function.update_of_ne hwho]
    exact le_rfl

theorem Bounded.move (hp : STORAGE_ID_BASE ≤ p) (h : s.Exact) (hmove : s.Move s') : s.Bounded p s' := by
  have hexact := h.move hmove
  cases hmove with
  | aside ha => exact .aside h ha
  | opened d => exact .of_le hexact rfl le_rfl (.inl le_rfl)
  | pushed hd _ _ hfits hassign => exact .assigned hp hexact hd hfits hassign
  | refilled hd _ _ hfits hassign => exact .assigned hp hexact hd hfits hassign
  | paid _ _ _ _ _ hpay =>
    obtain ⟨d, sl, -, -, rfl | ⟨-, -, hcredit⟩⟩ := pay_eq_some hpay
    · exact .of_le hexact rfl le_rfl (.inl le_rfl)
    · obtain ⟨-, hbond, providers, balanceOf, rfl⟩ := credit_spec hcredit
      refine .of_le hexact rfl (hbond p) (.inl ?_)
      simp only [Swarm.paid]
      rw [uncommit_offers]
      split
      case isTrue hp =>
        subst hp
        exact Nat.sub_le _ _
      case isFalse => exact le_rfl
  | dropped _ _ _ hdrop =>
    obtain ⟨d, sl, -, -, rfl⟩ := drop_eq_some hdrop
    refine .of_le hexact rfl le_rfl (.inl ?_)
    rw [uncommit_offers]
    by_cases hq : p = sl.provider
    · subst hq
      simp only [setOffer, Function.update_self, if_pos]
      exact Nat.sub_le _ _
    · simp only [setOffer, setDeal, Function.update_of_ne hq, if_neg hq]
      exact le_rfl
  | cancelled hcancel =>
    obtain ⟨d, offers, -, -, -, -, rfl, hoffers⟩ := cancelDeal_eq_some hcancel
    refine .of_le hexact rfl le_rfl (.inl ?_)
    simp only [hoffers]
    exact Nat.sub_le _ _
  | refunded _ _ hrefund =>
    simp only [refund, bind, Option.bind_eq_some_iff] at hrefund
    obtain ⟨d, -, hdeposit⟩ := hrefund
    obtain ⟨-, balanceOf, rfl⟩ := deposit_spec hdeposit
    exact .of_le hexact rfl le_rfl (.inl le_rfl)

end Swarm

/-- An extension of a deal of which `p` holds a copy, by more than the limit of `p` leaves room for. -/
def Op.Overcommits (p : Nat) (op : Op) (s : Swarm) : Prop :=
  match op with
  | .extendDeal _ _ id epochs => ∃ d, s.deals[id]? = some d ∧ d.holds p = true ∧
      s.limit p < (s.offers p).committed + d.perEpoch * epochs
  | _ => False

namespace Swarm

variable {s s' : Swarm} {id p value epochs : Nat} {sender : Address}

theorem extendDeal_committed (h : s.Exact) (hext : s.extendDeal sender value id epochs = some s') :
    ∃ d, s.deals[id]? = some d ∧ 0 < d.perEpoch * epochs ∧ s'.lost = s.lost ∧ s'.limit p = s.limit p ∧
      (s'.offers p).committed = (s.offers p).committed + if d.holds p then d.perEpoch * epochs else 0 := by
  obtain ⟨d, offers, hd, -, -, -, hne, -, rfl, -, hoffers⟩ := extendDeal_eq_some hext
  have hmem := List.mem_of_getElem? hd
  refine ⟨d, hd, Nat.mul_pos (h.priced d hmem) (Nat.pos_of_ne_zero hne), rfl, rfl, ?_⟩
  simp only [hoffers]
  congr 1
  cases hholds : d.holds p with
  | false => simp [Deal.holds_eq_false.1 hholds]
  | true =>
    have hone : d.copies p = 1 := by
      have hle := h.single d hmem p
      have hne : d.copies p ≠ 0 := by
        intro h0
        rw [Deal.holds_eq_false.2 h0] at hholds
        cases hholds
      omega
    simp [hone]

theorem Bounded.extended (h : s.Exact) (hok : ¬ (Op.extendDeal sender value id epochs).Overcommits p s)
    (hext : s.extendDeal sender value id epochs = some s') : s.Bounded p s' := by
  obtain ⟨d, hd, -, hlost, hlimit, hc⟩ := extendDeal_committed (p := p) h hext
  have hexact := h.extended hext
  refine ⟨hexact, by rw [hlost], ?_⟩
  unfold Swarm.excess
  rw [hlimit, hc]
  split
  case isTrue hholds =>
    have hle : (s.offers p).committed + d.perEpoch * epochs ≤ s.limit p :=
      Nat.not_lt.1 fun hlt => hok ⟨d, hd, hholds, hlt⟩
    omega
  case isFalse => exact Nat.le_add_right _ _

end Swarm

/-- The commit limit. An operation that goes through without a loss of the bond of `p`, and during which
`p` is not overcommitted by others, raises the excess of `p` exactly if it is an extension that the limit
leaves no room for. -/
theorem commit_limit_iff (refuses : Address → Prop) (s₀ s s' : Swarm) (p : Nat) (op : Op) (h₀ : s₀.Initial)
    (h : Reached refuses s₀ s) (hp : STORAGE_ID_BASE ≤ p)
    (hop : Finishes refuses entry (fun op s => ¬ op.Overcommits p s) (entry op s) s') (hbond : s'.lost p = s.lost p) :
    s'.excess p ≤ s.excess p ↔ ¬ op.Overcommits p s := by
  have hexact := h.exact h₀
  have hentry (op : Op) (s : Swarm) (hs : s.Exact) (hok : ¬ op.Overcommits p s) :
      (entry op s).Ends refuses Swarm.Exact (Swarm.Bounded p) fun _ => s.Bounded p :=
    ends_entry (fun op s => ¬ op.Overcommits p s) (Swarm.bounded_guarantee p) (fun s s' hs hm => .move hp hs hm)
      (fun s s' sender value id epochs hs hok hext => .extended hs hok hext) op s hs hok
  constructor
  · intro hle hover
    cases op with
    | extendDeal sender value id epochs =>
      obtain ⟨d, hd, hholds, hlt⟩ := hover
      have hext : s.extendDeal sender value id epochs = some s' :=
        (Reentry.finishes_update fun s : Swarm => s.extendDeal sender value id epochs).1 hop
      obtain ⟨d₀, hd₀, hpos, -, hlimit, hc⟩ := Swarm.extendDeal_committed (p := p) hexact hext
      obtain rfl : d = d₀ := Option.some.inj (hd.symm.trans hd₀)
      unfold Swarm.excess at hle
      rw [hlimit, hc, if_pos hholds] at hle
      omega
    | _ => exact hover
  · intro hok
    have hb := hop.ends (Swarm.bounded_guarantee p) hentry (hentry op s hexact hok)
    have hle := hb.excess
    rw [hbond, Nat.sub_self, Nat.mul_zero, Nat.add_zero] at hle
    exact hle

/-- The deal of a provider at its limit is extended by an epoch. -/
theorem extension_exceeds_limit : ∃ s s', Reached (fun _ => False) mock s ∧
    s.extendDeal 2 (10 ^ 18) 0 1 = some s' ∧ s.excess STORAGE_ID_BASE = 0 ∧ s'.excess STORAGE_ID_BASE = 10 ^ 18 ∧
    s.bondOf STORAGE_ID_BASE = 0 ∧ s'.bondOf STORAGE_ID_BASE = 0 := by
  have hrun : (mockDeal.foldlM Op.effect mock).map (fun s => ((s.extendDeal 2 (10 ^ 18) 0 1).map (fun s' =>
      (s'.excess STORAGE_ID_BASE, s'.bondOf STORAGE_ID_BASE)), s.excess STORAGE_ID_BASE, s.bondOf STORAGE_ID_BASE)) =
      some (some (10 ^ 18, 0), 0, 0) := by
    decide +kernel
  obtain ⟨s, hs, heq⟩ := Option.map_eq_some_iff.1 hrun
  obtain ⟨hext, hbefore⟩ := Prod.mk.inj heq
  obtain ⟨s', hs', hafter⟩ := Option.map_eq_some_iff.1 hext
  obtain ⟨he', hb'⟩ := Prod.mk.inj hafter
  obtain ⟨he, hb⟩ := Prod.mk.inj hbefore
  exact ⟨s, s', .effects (.refl mock) mockDeal_effects hs, hs', he, he', hb, hb'⟩

theorem commit_limit_iff_bond : ∃ s s', Reached (fun _ => False) mock s ∧
    s.depositBond (10 ^ 18) STORAGE_ID_BASE = some s' ∧ s'.excess STORAGE_ID_BASE ≤ s.excess STORAGE_ID_BASE := by
  have hrun : (mockDeal.foldlM Op.effect mock).map (fun s => ((s.depositBond (10 ^ 18) STORAGE_ID_BASE).map (fun s' =>
      s'.lost STORAGE_ID_BASE), s.lost STORAGE_ID_BASE)) = some (some 0, 0) := by
    decide +kernel
  obtain ⟨s, hs, heq⟩ := Option.map_eq_some_iff.1 hrun
  obtain ⟨hbond, hlost⟩ := Prod.mk.inj heq
  obtain ⟨s', hs', hlost'⟩ := Option.map_eq_some_iff.1 hbond
  have hreached : Reached (fun _ => False) mock s := .effects (.refl mock) mockDeal_effects hs
  refine ⟨s, s', hreached, hs', ?_⟩
  refine (commit_limit_iff (fun _ => False) mock s s' STORAGE_ID_BASE (.depositBond (10 ^ 18) STORAGE_ID_BASE)
    mock_initial hreached le_rfl ?_ (hlost'.trans hlost.symm)).2 id
  exact (Reentry.finishes_update fun s : Swarm => s.depositBond (10 ^ 18) STORAGE_ID_BASE).2 hs'

end Boltchain.Contracts.SwarmStorage
