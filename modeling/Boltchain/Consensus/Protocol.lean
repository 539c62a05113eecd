import Boltchain.Consensus.Invariant
import Boltchain.Lib.TwoChain

namespace Boltchain.Consensus

open Lib.TwoChain

variable {S : Scheme} {ι : Type}

namespace Net

/-- What block hashes commit to: the parent and the height. The height of a nil block is only ever
one more than its parent's. -/
structure Places (net : Net S ι) where
  par : Hash → Hash
  hgt : Hash → Nat
  of_valid : ∀ {b}, net.valid b → par b.hash = b.parent ∧ hgt b.hash = hgt b.parent + 1
  of_nil : ∀ p r, par (net.H.nilHash net.base.epoch p r) = p ∧
    hgt (net.H.nilHash net.base.epoch p r) = hgt p + 1
  of_header : ∀ {bs hd}, net.H.decodeHeader bs = some hd → par (net.H.keccak256 bs) = hd.parentHash

variable (net : Net S ι)

/-- The committee as the two-chain protocol sees it: what the nodes' disks stand for. -/
def system (par : Hash → Hash) (gd : ι → Ghost S) : System Nat Hash where
  par := par
  anchor := net.base.anchor.hash
  quorum A := ∃ F : Finset Nat, A = ↑F ∧ (∀ i ∈ F, i < net.base.validators.len) ∧
    2 * net.base.validators.fullTotal < 3 * net.base.validators.mass F
  honest i := ∃ ν, i ∈ net.me ν
  votes i r b q := ∃ ν, i ∈ net.me ν ∧ ∃ p ∈ (gd ν).ballots,
    p.block.round = r ∧ p.block.hash = b ∧ p.qc.round = q
  gaveUp i r t := ∃ ν, i ∈ net.me ν ∧ (r, t) ∈ (gd ν).quits

/-- The histories behind the disks keep to the safety rules and made every durable signature, where
certificates name nobody twice. -/
def Follows (T : net.Terms) (w : ι → Node S) (gd : ι → Ghost S) : Prop :=
  ∀ ν, (gd ν).signed = (w ν).durable ∧ T.strict ∧ ∃ v h, Safe (net.ctx T ν) (durable w) v h (gd ν)

variable {net} {T : net.Terms} {w : ι → Node S} {gd : ι → Ghost S} {par : Hash → Hash}

theorem exists_honest {A B : Set Nat} (hA : (net.system par gd).quorum A)
    (hB : (net.system par gd).quorum B) : ∃ i ∈ A, i ∈ B ∧ (net.system par gd).honest i := by
  obtain ⟨F, rfl, hF, qF⟩ := hA
  obtain ⟨F', rfl, hF', qF'⟩ := hB
  have hz := net.byzantine_lt
  rw [← ValidatorSet.mass_range] at qF qF' hz
  obtain ⟨i, hi, hi', hbyz⟩ := Lib.Quorum.exists_mem_inter (fun i hi => Finset.mem_range.2 (hF i hi))
    (fun i hi => Finset.mem_range.2 (hF' i hi)) qF qF' hz
  exact ⟨i, hi, hi', (net.honest_or i (hF i hi)).resolve_right hbyz⟩

variable (par gd) in
theorem Backed.quorum {P : Nat → Prop} (h : Backed net.base (fun i => ∃ ν, i ∈ net.me ν) P) :
    ∃ A, (net.system par gd).quorum A ∧ ∀ i ∈ A, (net.system par gd).honest i → P i := by
  obtain ⟨F, hF, hq, hP⟩ := h
  exact ⟨F, ⟨F, rfl, hF, hq⟩, fun i hi => hP i hi⟩

section

variable (hfol : net.Follows T w gd)

include hfol

theorem Follows.certified {r : Nat} {b : Hash}
    (h : Voted net.base (fun i => ∃ ν, i ∈ net.me ν) (durable w) r b) :
    (net.system par gd).Certified r b := by
  obtain ⟨A, hA, hP⟩ := Backed.quorum gd par h
  refine ⟨A, hA, fun i hi hh => ?_⟩
  obtain ⟨ν, hν⟩ := hP i hi hh
  obtain ⟨hsigned, -, v, k, hsafe⟩ := hfol ν
  rw [← hsigned] at hν
  obtain ⟨hme, p, hp, hr, hb⟩ := hsafe.votes i r b hν
  exact ⟨p.qc.round, ν, hme, p, hp, hr, hb, rfl⟩

theorem Follows.givenUp {r q : Nat}
    (h : GaveUp net.base (fun i => ∃ ν, i ∈ net.me ν) (durable w) r q) :
    (net.system par gd).GivenUp r q := by
  obtain ⟨A, hA, hP⟩ := Backed.quorum gd par h
  refine ⟨A, hA, fun i hi hh => ?_⟩
  obtain ⟨t, ht, ν, hν⟩ := hP i hi hh
  obtain ⟨hsigned, -, v, k, hsafe⟩ := hfol ν
  rw [← hsigned] at hν
  obtain ⟨hme, hq⟩ := hsafe.timeouts i r t hν
  exact ⟨t, ht, ν, hme, hq⟩

theorem Follows.place (P : net.Places) {ν : ι} {p : Proposal S} (hp : p ∈ (gd ν).ballots) :
    P.par p.block.hash = p.block.parent ∧ P.hgt p.block.hash = P.hgt (P.par p.block.hash) + 1 := by
  obtain ⟨-, hstrict, v, k, hsafe⟩ := hfol ν
  rcases hsafe.valid p hp with hend | hvalid
  · obtain ⟨hpar, hhgt⟩ := P.of_nil p.block.parent p.block.round
    rw [show p.block.hash = net.H.nilHash net.base.epoch p.block.parent p.block.round from
      (hsafe.checked p hp).nil hend, hpar]
    exact ⟨rfl, hhgt⟩
  · obtain ⟨hpar, hhgt⟩ := P.of_valid hvalid
    exact ⟨hpar, by rw [hhgt, hpar]⟩

/-- The nodes follow the rules of the two-chain protocol. -/
theorem Follows.rules (P : net.Places) : (net.system P.par gd).Rules where
  meet := exists_honest
  once := by
    rintro i r b b' q q' - ⟨ν, hi, p, hp, rfl, rfl, -⟩ ⟨μ, hi', p', hp', hr, rfl, -⟩
    obtain rfl := net.disjoint hi hi'
    obtain ⟨-, hstrict, v, k, hsafe⟩ := hfol ν
    rw [hsafe.once p hp p' hp' hr.symm]
  below := by
    rintro i r b q - ⟨ν, hi, p, hp, rfl, rfl, rfl⟩
    obtain ⟨-, hstrict, v, k, hsafe⟩ := hfol ν
    exact (hsafe.checked p hp).above
  justified := by
    rintro i r b q - ⟨ν, hi, p, hp, rfl, rfl, rfl⟩
    have hplace := (hfol.place P hp).1
    obtain ⟨-, hstrict, v, k, hsafe⟩ := hfol ν
    have hchecked := hsafe.checked p hp
    rw [show (net.system P.par gd).par p.block.hash = p.qc.block from hplace.trans hchecked.parent]
    exact (hchecked.qc.backed hstrict).imp id hfol.certified
  recent := by
    rintro i r b q - ⟨ν, hi, p, hp, rfl, rfl, rfl⟩
    obtain ⟨-, hstrict, v, k, hsafe⟩ := hfol ν
    have hrecent := hsafe.recent p hp
    unfold Engine.safeToVote at hrecent
    split at hrecent
    case isTrue h => exact .inl h
    case isFalse =>
      split at hrecent
      case h_2 => cases hrecent
      case h_1 tc htc =>
        rw [Bool.and_eq_true, beq_iff_eq, decide_eq_true_eq] at hrecent
        refine .inr (hfol.givenUp ?_)
        have hgave := ((hsafe.checked p hp).tc tc htc).2.gaveUp hstrict
        rw [← hrecent.1, Nat.add_sub_cancel]
        exact hgave.mono _ _ fun _ ⟨t, ht, h⟩ => ⟨t, ht.trans hrecent.2, h⟩
  lock := by
    rintro i r b q r' t - ⟨ν, hi, p, hp, rfl, rfl, rfl⟩ ⟨μ, hi', hq⟩ hle
    obtain rfl := net.disjoint hi hi'
    obtain ⟨-, hstrict, v, k, hsafe⟩ := hfol ν
    exact hsafe.lock p hp _ hq hle

end

end Net

end Boltchain.Consensus
