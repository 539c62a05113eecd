import Boltchain.Consensus.Crypto

namespace Boltchain.Consensus

open Lib.Assoc

variable {S : Scheme}

/-- What the run of an engine leaves behind: the proposals it decided to vote for, the rounds it
gave up on with the certificate round it reported, the signatures it made, the blocks it
committed, the last round it entered, the rounds it asked the node to propose in, and whether it
may sign a proposal of the current round. -/
structure Ghost (S : Scheme) where
  ballots : List (Proposal S)
  quits : List (Nat × Nat)
  signed : List (Nat × SignMsg)
  emitted : List BlockInfo
  opened : Option Nat
  asked : List Nat
  fresh : Bool

def Ghost.init : Ghost S := ⟨[], [], [], [], none, [], false⟩

variable (c : Ctx S) (K : Knowledge)

/-- A block of the tree: the anchor, a stored block, or a nil block. -/
def Ctx.Known (b : BlockInfo) : Prop :=
  b = c.cfg.anchor ∨ c.stored b ∨
    c.cfg.endHeight < b.height ∧ b.hash = c.H.nilHash c.cfg.epoch b.parent b.round ∧
      c.placed b.hash b.height

def Ctx.Above (b : BlockInfo) : Prop := b = c.cfg.anchor ∨ c.cfg.anchor.height < b.height

def Ctx.Below (h : Hash) (k : Nat) : Prop := ∃ b, c.Known b ∧ b.hash = h ∧ b.height < k

def Ctx.InTree (b : BlockInfo) : Prop := c.Known b ∧ c.Above b

structure Checked (p : Proposal S) : Prop where
  parent : p.block.parent = p.qc.block
  height : p.block.height = p.qc.height + 1
  above : p.qc.round < p.block.round
  nil : c.cfg.endHeight < p.block.height →
    p.block.hash = c.H.nilHash c.cfg.epoch p.block.parent p.block.round
  qc : QcOk c K p.qc
  tc : ∀ tc ∈ p.tc, tc.round + 1 = p.block.round ∧ TcOk c K tc

variable {c K} in
theorem Checked.placed_nil {p : Proposal S} (h : Checked c K p) (hend : c.cfg.endHeight < p.block.height) :
    c.placed p.block.hash p.block.height := by
  rw [h.nil hend, h.height, h.parent]
  have hheight := h.height
  exact c.placed_nil _ (by omega) h.qc.height

structure VoteSetOk (key : Nat × Hash) (set : VoteSet S) : Prop where
  nodup : (keys set.sigs ++ keys set.pending).Nodup
  lt : ∀ i ∈ keys set.sigs ++ keys set.pending, i < c.cfg.validators.len
  sigs : ∀ x ∈ set.sigs, c.U.sig K x.2 ∧
    S.verify x.1 (.vote c.cfg.chainId c.cfg.epoch key.1 key.2) x.2 = true
  pending : ∀ x ∈ set.pending, c.U.sig K x.2
  height : c.placed key.2 set.height

structure TimeoutSetOk (round : Nat) (set : TimeoutSet S) : Prop where
  nodup : (keys set.entries).Nodup
  lt : ∀ i ∈ keys set.entries, i < c.cfg.validators.len
  entries : ∀ x ∈ set.entries,
    c.honest x.1 → (x.1, .timeout c.cfg.chainId c.cfg.epoch round x.2.1) ∈ K
  verified : ∀ x ∈ set.entries, x.2.1 < round ∧
    S.verify x.1 (.timeout c.cfg.chainId c.cfg.epoch round x.2.1) x.2.2 = true
  highQc : QcOk c K set.highQc
  accepted : c.complete → c.verifyQc set.highQc = true
  max : c.ordered → (∀ x ∈ set.entries, x.2.1 ≤ set.highQc.round) ∧
    ∃ x ∈ set.entries, x.2.1 = set.highQc.round

/-- Everything an engine remembers was checked. A certificate is kept under its block's hash, but
for those of blocks no longer needed. -/
structure Mem (e : Engine S) : Prop where
  cfg : e.cfg = c.cfg
  high : QcOk c K e.highQc
  accepted : c.complete → c.verifyQc e.highQc = true
  qcs : ∀ x ∈ e.qcs, QcOk c K x.2 ∧ (x.2.block = x.1 ∨ c.Below x.1 (e.committed.height + 1))
  blocked : ∀ q ∈ e.blockedCommit, QcOk c K q
  entry : ∀ tc ∈ e.entryTc, TcOk c K tc ∧ tc.round + 1 = e.round
  pending : ∀ x ∈ e.pending, x.2.block.hash = x.1 ∧ Checked c K x.2 ∧ x.2.qc.round ≤ e.highQc.round
  votes : ∀ x ∈ e.votes, VoteSetOk c K x.1 x.2
  timeouts : ∀ x ∈ e.timeouts, TimeoutSetOk c K x.1 x.2 ∧ ∀ y ∈ x.2.entries, y.2.1 ≤ e.highQc.round
  blocks : ∀ x ∈ e.blocks, x.1 = x.2.hash ∧ c.InTree x.2
  committed : c.InTree e.committed

def Linked : Hash → List BlockInfo → Hash → Prop
  | a, [], b => a = b
  | a, x :: l, b => x.parent = a ∧ Linked x.hash l b

structure CommitOk (e : Engine S) (p b : BlockInfo) (qc : Qc S) (chain : List BlockInfo) : Prop where
  running : e.finished = false
  child : (qc.block, b) ∈ e.blocks
  parent : (b.parent, p) ∈ e.blocks
  rounds : p.round + 1 = b.round
  above : e.committed.height < p.height
  qc : QcOk c K qc
  linked : Linked e.committed.hash chain p.hash
  chain : ∀ x ∈ chain, (x.hash, x) ∈ e.blocks ∧ e.committed.height < x.height

/-- One update of the engine's state, with what the code has checked before it. -/
inductive Micro : Engine S × Ghost S → Engine S × Ghost S → Prop
  | round {e g r tc} (hr : e.round < r) (htc : ∀ t ∈ tc, TcOk c K t ∧ t.round + 1 = r) :
      Micro (e, g) ({ e with round := r, entryTc := tc, requested := [] },
        { g with opened := some r, fresh := false })
  | prune {e g} : Micro (e, g) (e.prune, g)
  | scratch {e g} (timedOut : List Nat) (requested : List Hash) (k : Nat) :
      Micro (e, g) ({ e with timedOut := timedOut, requested := requested, consecutiveTimeouts := k }, g)
  | recordQc {e g qc} (h : QcOk c K qc) : Micro (e, g) (e.recordQc qc, g)
  | insertBlock {e g b} (h : c.Known b) : Micro (e, g) (e.insertBlock b, g)
  | fetched {e g b} (h : c.Known b) (hb : e.committed.height < b.height) :
      Micro (e, g) ({ e with blocks := put e.blocks b.hash b }, g)
  | external {e g b} (hx : c.imports) (h : c.Known b) (hb : e.committed.height < b.height) :
      Micro (e, g) ({ e with blocks := put e.blocks b.hash b, committed := b }, g)
  | block {e g q} (h : QcOk c K q) :
      Micro (e, g) ({ e with blockedCommit := some q }, g)
  | commit {e g p b qc chain} (f : Bool) (h : CommitOk c K e p b qc chain)
      (hf : f = true ↔ c.cfg.endHeight ≤ p.height) :
      Micro (e, g) ({ e with
        committed := p
        blockedCommit := e.blockedCommit.filter fun q => qc.round < q.round
        finished := f || e.finished },
        { g with emitted := g.emitted ++ chain.filter fun x => x.height ≤ c.cfg.endHeight })
  | votes {e g key set} (h : VoteSetOk c K key set) :
      Micro (e, g) ({ e with votes := put e.votes key set }, g)
  | timeouts {e g r set} (h : TimeoutSetOk c K r set)
      (hq : ∀ x ∈ set.entries, x.2.1 ≤ e.highQc.round) :
      Micro (e, g) ({ e with timeouts := put e.timeouts r set }, g)
  | pending {e g p} (h : Checked c K p) (hq : p.qc.round ≤ e.highQc.round) :
      Micro (e, g) ({ e with pending := put e.pending p.block.hash p }, g)
  | drop {e g h} : Micro (e, g) ({ e with pending := del e.pending h }, g)
  | ballot {e g p} (h : Checked c K p) (hq : p.qc.round ≤ e.highQc.round)
      (hv : c.cfg.endHeight < p.block.height ∨ c.valid p.block) (hr : p.block.round = e.round)
      (hl : e.lastVoted < p.block.round) (hs : Engine.safeToVote p = true) :
      Micro (e, g) ({ e with lastVoted := p.block.round }, { g with ballots := p :: g.ballots })
  | signVote {e g i p} (hi : i ∈ c.cfg.me) (hp : p ∈ g.ballots) :
      Micro (e, g) (e, { g with signed :=
        g.signed ++ [(i, .vote c.cfg.chainId c.cfg.epoch p.block.round p.block.hash)] })
  | quit {e g} : Micro (e, g) ({ e with lastVoted := max e.lastVoted e.round },
      { g with quits := (e.round, e.highQc.round) :: g.quits })
  | signTimeout {e g i q} (hi : i ∈ c.cfg.me) (hq : q ∈ g.quits) :
      Micro (e, g) (e, { g with signed :=
        g.signed ++ [(i, .timeout c.cfg.chainId c.cfg.epoch q.1 q.2)] })
  | grant {e g} (ho : g.opened = some e.round) (hp : e.round ∉ e.proposed) :
      Micro (e, g) ({ e with proposed := e.round :: e.proposed }, { g with fresh := true })
  | ask {e g} (hf : g.fresh = true) :
      Micro (e, g) (e, { g with asked := e.round :: g.asked, fresh := false })
  | answer {e g} (hr : c.unasked ∨ e.round ∈ g.asked) :
      Micro (e, g) (e, { g with asked := g.asked.filter (· ≠ e.round), fresh := true })
  | signProposal {e g i h ph} (hi : i ∈ c.cfg.me) (hf : g.fresh = true) :
      Micro (e, g) (e, { g with
        signed := g.signed ++ [(i, .proposal c.cfg.chainId c.cfg.epoch e.round h ph)], fresh := false })

abbrev Steps := Relation.ReflTransGen (Micro c K)

variable {c K}

theorem recordQc_round_le (e : Engine S) (qc : Qc S) : e.highQc.round ≤ (e.recordQc qc).highQc.round := by
  simp only [Engine.recordQc]
  split
  case isTrue h => exact h.le
  case isFalse => exact le_refl _

variable {e : Engine S}

theorem Mem.recordQc {qc : Qc S} (hm : Mem c K e) (h : QcOk c K qc) :
    Mem c K (e.recordQc qc) := by
  have hle := recordQc_round_le e qc
  have hhigh : QcOk c K (e.recordQc qc).highQc ∧ (c.complete → c.verifyQc (e.recordQc qc).highQc = true) := by
    simp only [Engine.recordQc]
    split
    case isTrue hlt => exact ⟨h, fun hc => h.verified hc (Nat.zero_lt_of_lt hlt)⟩
    case isFalse => exact ⟨hm.high, hm.accepted⟩
  refine { hm with
    high := hhigh.1
    accepted := hhigh.2
    qcs := ?_
    pending := fun x hx => ⟨(hm.pending x hx).1, (hm.pending x hx).2.1, (hm.pending x hx).2.2.trans hle⟩
    timeouts := fun x hx => ⟨(hm.timeouts x hx).1, fun y hy => ((hm.timeouts x hx).2 y hy).trans hle⟩ }
  intro x hx
  simp only [Engine.recordQc] at hx
  split at hx
  · exact hm.qcs x hx
  · rcases mem_put hx with rfl | hx
    · exact ⟨h, .inl rfl⟩
    · exact hm.qcs x hx

variable {k : Nat}

theorem Mem.qcs_of_le (hm : Mem c K e) (hk : e.committed.height ≤ k) :
    ∀ x ∈ e.qcs, QcOk c K x.2 ∧ (x.2.block = x.1 ∨ c.Below x.1 (k + 1)) := by
  intro x hx
  obtain ⟨hok, hkey⟩ := hm.qcs x hx
  exact ⟨hok, hkey.imp id fun ⟨b, hb, hh, hlt⟩ => ⟨b, hb, hh, by omega⟩⟩

theorem Mem.prune (hm : Mem c K e) : Mem c K e.prune :=
  { hm with
    qcs := fun x hx => hm.qcs x (List.mem_filter.1 hx).1
    pending := fun x hx => hm.pending x (List.mem_filter.1 hx).1
    votes := fun x hx => hm.votes x (List.mem_filter.1 hx).1
    timeouts := fun x hx => hm.timeouts x (List.mem_filter.1 hx).1
    blocks := fun x hx => hm.blocks x (List.mem_filter.1 hx).1 }

theorem Mem.anchor_lt (hm : Mem c K e) (h : e.committed.height < k) :
    c.cfg.anchor.height < k := by
  rcases hm.committed.2 with heq | hlt
  · rwa [heq] at h
  · exact hlt.trans h

variable {b : BlockInfo}

theorem Mem.inTree (hm : Mem c K e) (h : c.Known b)
    (hb : e.committed.height < b.height) : c.InTree b :=
  ⟨h, .inr (hm.anchor_lt hb)⟩

theorem Mem.put_blocks (hm : Mem c K e) (h : c.Known b)
    (hb : e.committed.height < b.height) :
    ∀ x ∈ put e.blocks b.hash b, x.1 = x.2.hash ∧ c.InTree x.2 := by
  intro x hx
  rcases mem_put hx with rfl | hx
  · exact ⟨rfl, hm.inTree h hb⟩
  · exact hm.blocks x hx

theorem Mem.insertBlock (hm : Mem c K e) (h : c.Known b) :
    Mem c K (e.insertBlock b) := by
  unfold Engine.insertBlock
  split
  case isTrue hcond => exact { hm with blocks := hm.put_blocks h hcond.2 }
  case isFalse => exact hm

theorem Mem.external (hm : Mem c K e) (h : c.Known b)
    (hb : e.committed.height < b.height) :
    Mem c K { e with blocks := put e.blocks b.hash b, committed := b } :=
  { hm with
    qcs := hm.qcs_of_le hb.le
    blocks := hm.put_blocks h hb
    committed := hm.inTree h hb }

variable {s s' : Engine S × Ghost S}

/-- Every update keeps the memory checked. -/
theorem Micro.mem (h : Micro c K s s') (hm : Mem c K s.1) : Mem c K s'.1 := by
  cases h with
  | round hr htc => exact { hm with entry := htc }
  | prune => exact hm.prune
  | scratch => exact { hm with }
  | recordQc h => exact hm.recordQc h
  | insertBlock h => exact hm.insertBlock h
  | fetched h hb => exact { hm with blocks := hm.put_blocks h hb }
  | external hx h hb => exact hm.external h hb
  | block h => exact { hm with blocked := fun q hq => by cases hq; exact h }
  | commit f h hf =>
    exact { hm with
      qcs := hm.qcs_of_le h.above.le
      blocked := fun q hq => hm.blocked q (Option.mem_filter_iff.1 hq).1
      committed := (hm.blocks _ h.parent).2 }
  | votes h =>
    refine { hm with votes := fun x hx => ?_ }
    rcases mem_put hx with rfl | hx
    · exact h
    · exact hm.votes x hx
  | timeouts h hq =>
    refine { hm with timeouts := fun x hx => ?_ }
    rcases mem_put hx with rfl | hx
    · exact ⟨h, hq⟩
    · exact hm.timeouts x hx
  | pending h hq =>
    refine { hm with pending := fun x hx => ?_ }
    rcases mem_put hx with rfl | hx
    · exact ⟨rfl, h, hq⟩
    · exact hm.pending x hx
  | drop => exact { hm with pending := fun x hx => hm.pending x (mem_del hx).1 }
  | ballot => exact { hm with }
  | signVote => exact hm
  | quit => exact { hm with }
  | signTimeout => exact hm
  | grant => exact { hm with }
  | ask => exact hm
  | answer => exact hm
  | signProposal => exact hm

theorem Steps.mem (h : Steps c K s s') (hm : Mem c K s.1) : Mem c K s'.1 := by
  induction h with
  | refl => exact hm
  | tail _ h ih => exact h.mem ih

/-- What only grows: the high certificate, the last round voted in, the height of the committed
block, the decisions taken. A finished engine stays finished. -/
structure Grows (s s' : Engine S × Ghost S) : Prop where
  high : s.1.highQc.round ≤ s'.1.highQc.round
  lastVoted : s.1.lastVoted ≤ s'.1.lastVoted
  round : s.1.round ≤ s'.1.round
  committed : s.1.committed.height ≤ s'.1.committed.height
  finished : s.1.finished = true → s'.1.finished = true
  ballots : s.2.ballots ⊆ s'.2.ballots
  quits : s.2.quits ⊆ s'.2.quits

theorem Micro.grows (h : Micro c K s s') : Grows s s' := by
  have hself : ∀ t : Engine S × Ghost S, Grows t t := fun t =>
    ⟨le_refl _, le_refl _, le_refl _, le_refl _, id, List.Subset.refl _, List.Subset.refl _⟩
  cases h with
  | round hr htc => exact { hself _ with round := hr.le }
  | recordQc h => exact { hself _ with high := recordQc_round_le _ _ }
  | insertBlock h =>
    unfold Engine.insertBlock
    split <;> exact { hself _ with }
  | external hx h hb => exact { hself _ with committed := hb.le }
  | commit f h hf =>
    exact { hself _ with
      committed := h.above.le
      finished := fun hfin => Bool.or_eq_true _ _ ▸ .inr hfin }
  | ballot h hq hv hr hl hs =>
    exact { hself _ with lastVoted := hl.le, ballots := List.subset_cons_self _ _ }
  | quit => exact { hself _ with lastVoted := le_max_left _ _, quits := List.subset_cons_self _ _ }
  | _ => exact { hself _ with }

theorem Steps.grows (h : Steps c K s s') : Grows s s' := by
  induction h with
  | refl => exact ⟨le_refl _, le_refl _, le_refl _, le_refl _, id, List.Subset.refl _, List.Subset.refl _⟩
  | tail _ h ih =>
    have h := h.grows
    exact ⟨ih.high.trans h.high, ih.lastVoted.trans h.lastVoted, ih.round.trans h.round,
      ih.committed.trans h.committed, fun hf => h.finished (ih.finished hf), List.Subset.trans ih.ballots h.ballots, List.Subset.trans ih.quits h.quits⟩

theorem Steps.opened (h : Steps c K s s') (ho : s.2.opened = some s.1.round) :
    s'.2.opened = some s'.1.round := by
  induction h with
  | refl => exact ho
  | tail _ h ih =>
    cases h with
    | round => rfl
    | insertBlock =>
      simp only [Engine.insertBlock]
      split <;> exact ih
    | _ => exact ih

end Boltchain.Consensus
