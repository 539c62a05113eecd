import Boltchain.Consensus.RefineEvents

namespace Boltchain.Consensus

variable {S : Scheme} (c : Ctx S) (K : Knowledge)

/-- The safety rules, in terms of what a restart keeps: the last round voted or timed out in and
the round of the high certificate. -/
structure Safe (lastVoted high : Nat) (g : Ghost S) : Prop where
  ballots_le : ∀ p ∈ g.ballots, p.block.round ≤ lastVoted
  quits_le : ∀ q ∈ g.quits, q.1 ≤ lastVoted
  once : ∀ p ∈ g.ballots, ∀ p' ∈ g.ballots, p.block.round = p'.block.round → p = p'
  checked : ∀ p ∈ g.ballots, Checked c K p
  recent : ∀ p ∈ g.ballots, Engine.safeToVote p = true
  valid : ∀ p ∈ g.ballots, c.cfg.endHeight < p.block.height ∨ c.valid p.block
  high_le : ∀ p ∈ g.ballots, p.qc.round ≤ high
  lock : ∀ p ∈ g.ballots, ∀ q ∈ g.quits, p.block.round ≤ q.1 → p.qc.round ≤ q.2
  votes : ∀ i r h, (i, .vote c.cfg.chainId c.cfg.epoch r h) ∈ g.signed →
    i ∈ c.cfg.me ∧ ∃ p ∈ g.ballots, p.block.round = r ∧ p.block.hash = h
  timeouts : ∀ i r t, (i, .timeout c.cfg.chainId c.cfg.epoch r t) ∈ g.signed →
    i ∈ c.cfg.me ∧ (r, t) ∈ g.quits

variable {c K} {e e' : Engine S} {g g' : Ghost S} {v v' h h' : Nat}

theorem Safe.init : Safe c K v h (Ghost.init : Ghost S) := by
  constructor <;> simp [Ghost.init]

theorem Safe.raise (hs : Safe c K v h g) (hv : v ≤ v') (hh : h ≤ h') : Safe c K v' h' g :=
  { hs with
    ballots_le := fun p hp => (hs.ballots_le p hp).trans hv
    quits_le := fun q hq => (hs.quits_le q hq).trans hv
    high_le := fun p hp => (hs.high_le p hp).trans hh }

theorem Checked.mono {K' : Knowledge} {p : Proposal S} (hK : K ⊆ K') (hp : Checked c K p) :
    Checked c K' p :=
  { hp with
    qc := hp.qc.mono hK
    tc := fun tc h => ⟨(hp.tc tc h).1, (hp.tc tc h).2.mono hK⟩ }

theorem Safe.mono {K' : Knowledge} (hK : K ⊆ K') (hs : Safe c K v h g) : Safe c K' v h g :=
  { hs with checked := fun p hp => (hs.checked p hp).mono hK }

theorem Safe.ballot {p : Proposal S} (hs : Safe c K v h g) (hp : Checked c K p) (hq : p.qc.round ≤ h)
    (hvalid : c.cfg.endHeight < p.block.height ∨ c.valid p.block) (hv : v < p.block.round)
    (hr : Engine.safeToVote p = true) :
    Safe c K p.block.round h { g with ballots := p :: g.ballots } := by
  have hall : ∀ {P : Proposal S → Prop}, P p → (∀ x ∈ g.ballots, P x) → ∀ x ∈ p :: g.ballots, P x :=
    fun h0 h x hx => (List.mem_cons.1 hx).elim (fun e => e ▸ h0) (h x)
  have hlt : ∀ x ∈ g.ballots, x.block.round < p.block.round := fun x hx => (hs.ballots_le x hx).trans_lt hv
  refine ⟨hall (le_refl _) fun x hx => (hlt x hx).le, fun q hq => (hs.quits_le q hq).trans hv.le, ?_,
    hall hp hs.checked, hall hr hs.recent, hall hvalid hs.valid, hall hq hs.high_le, ?_, ?_, hs.timeouts⟩
  · intro x hx y hy hxy
    rcases List.mem_cons.1 hx with hxp | hxg <;> rcases List.mem_cons.1 hy with hyp | hyg
    · rw [hxp, hyp]
    · rw [hxp] at hxy
      exact absurd hxy (hlt y hyg).ne'
    · rw [hyp] at hxy
      exact absurd hxy (hlt x hxg).ne
    · exact hs.once x hxg y hyg hxy
  · intro x hx q hq hle
    rcases List.mem_cons.1 hx with rfl | hx
    · exact absurd (hs.quits_le q hq) (not_le.2 (hv.trans_le hle))
    · exact hs.lock x hx q hq hle
  · intro i r b hi
    obtain ⟨hme, x, hx, hxr⟩ := hs.votes i r b hi
    exact ⟨hme, x, List.mem_cons_of_mem _ hx, hxr⟩

theorem Safe.quit (hs : Safe c K v h g) (r : Nat) :
    Safe c K (max v r) h { g with quits := (r, h) :: g.quits } := by
  have hup := hs.raise (le_max_left v r) (le_refl h)
  refine { hup with quits_le := ?_, lock := ?_, timeouts := ?_ }
  · intro q hq
    rcases List.mem_cons.1 hq with rfl | hq
    · exact le_max_right v r
    · exact hup.quits_le q hq
  · intro p hp q hq hle
    rcases List.mem_cons.1 hq with rfl | hq
    · exact hs.high_le p hp
    · exact hs.lock p hp q hq hle
  · intro i r' t hi
    exact ⟨(hs.timeouts i r' t hi).1, List.mem_cons_of_mem _ (hs.timeouts i r' t hi).2⟩

theorem Safe.sign {i : Nat} {m : SignMsg} (hs : Safe c K v h g)
    (hvote : ∀ r b, m = .vote c.cfg.chainId c.cfg.epoch r b →
      i ∈ c.cfg.me ∧ ∃ p ∈ g.ballots, p.block.round = r ∧ p.block.hash = b)
    (htime : ∀ r t, m = .timeout c.cfg.chainId c.cfg.epoch r t → i ∈ c.cfg.me ∧ (r, t) ∈ g.quits) :
    Safe c K v h { g with signed := g.signed ++ [(i, m)] } := by
  refine { hs with votes := ?_, timeouts := ?_ }
  · intro j r b hj
    rcases List.mem_append.1 hj with hj | hj
    · exact hs.votes j r b hj
    · cases List.mem_singleton.1 hj
      exact hvote r b rfl
  · intro j r t hj
    rcases List.mem_append.1 hj with hj | hj
    · exact hs.timeouts j r t hj
    · cases List.mem_singleton.1 hj
      exact htime r t rfl

theorem Micro.safe {s s' : Engine S × Ghost S} (hstep : Micro c K s s')
    (hs : Safe c K s.1.lastVoted s.1.highQc.round s.2) :
    Safe c K s'.1.lastVoted s'.1.highQc.round s'.2 := by
  cases hstep with
  | recordQc => exact hs.raise (le_refl _) (recordQc_round_le _ _)
  | insertBlock =>
    simp only [Engine.insertBlock]
    split <;> exact hs
  | ballot hp hq hv hr hl hsafe => exact hs.ballot hp hq hv hl hsafe
  | quit => exact hs.quit _
  | signVote hi hp =>
    refine hs.sign ?_ ?_
    · rintro r b ⟨⟩
      exact ⟨hi, _, hp, rfl, rfl⟩
    · rintro r t ⟨⟩
  | signTimeout hi hq =>
    refine hs.sign ?_ ?_
    · rintro r b ⟨⟩
    · rintro r t ⟨⟩
      exact ⟨hi, hq⟩
  | signProposal =>
    refine { hs.sign ?_ ?_ with }
    · rintro r b ⟨⟩
    · rintro r t ⟨⟩
  | _ => exact { hs with }

theorem Steps.safe {s s' : Engine S × Ghost S} (h : Steps c K s s')
    (hs : Safe c K s.1.lastVoted s.1.highQc.round s.2) :
    Safe c K s'.1.lastVoted s'.1.highQc.round s'.2 := by
  induction h with
  | refl => exact hs
  | tail _ h ih => exact h.safe ih

end Boltchain.Consensus
