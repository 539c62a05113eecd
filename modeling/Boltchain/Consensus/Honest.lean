import Boltchain.Consensus.Evidence
import Boltchain.Consensus.Finality

namespace Boltchain.Consensus.Net

variable {S : Scheme} {ι : Type} {net : Net S ι} {ok : Engine S → Event S → Prop} {w : ι → Node S}

/-- Nothing is asked of the inputs: their certificates may name a member twice. -/
theorem fits_any : Fits net { Terms.plain fun _ => True with strict := False } ok where
  clean h := h.elim
  stores _ _ := trivial
  valid _ := trivial
  imports _ _ := trivial
  levels _ _ _ _ := trivial
  votes _ := trivial
  reports _ h := h.elim

variable (net) in
def vote (round : Nat) (block : Hash) : SignMsg := .vote net.base.chainId net.base.epoch round block

variable [DecidableEq ι] {i r r' : Nat} {b b' : Hash}

theorem Run.vote_once (hrun : net.Run ok w) (h : (i, net.vote r b) ∈ durable w)
    (h' : (i, net.vote r b') ∈ durable w) : b = b' := by
  obtain ⟨ν, hd⟩ := h
  obtain ⟨μ, hd'⟩ := h'
  obtain ⟨_, _, hν⟩ := Run.nodeOk .trivial fits_any hrun ν
  obtain ⟨_, _, hμ⟩ := Run.nodeOk .trivial fits_any hrun μ
  obtain ⟨hi, p, hp, hr, hb⟩ := hν.safe.votes i r b (hν.signed ▸ hν.subset hd)
  -- a member signs on one node only
  obtain rfl := net.disjoint hi (hμ.safe.votes i r b' (hμ.signed ▸ hμ.subset hd')).1
  obtain ⟨-, p', hp', hr', hb'⟩ := hν.safe.votes i r b' (hν.signed ▸ hν.subset hd')
  rw [← hb, ← hb', hν.safe.once p hp p' hp' (hr.trans hr'.symm)]

end Boltchain.Consensus.Net
