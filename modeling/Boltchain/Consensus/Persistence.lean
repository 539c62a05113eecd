import Boltchain.Consensus.Safety

namespace Boltchain.Consensus

open Lib.Assoc

variable {S : Scheme} {c : Ctx S} {K K' : Knowledge} {e : Engine S}

theorem QcOk.anchor : QcOk c K (Engine.anchorQc c.cfg : Qc S) :=
  ⟨rfl, fun _ => .inl ⟨rfl, rfl⟩, by simp [Engine.anchorQc, Qc.anchor],
    fun _ h => absurd h (lt_irrefl 0), c.placed_anchor⟩

theorem verifyQc_anchor : c.verifyQc (Engine.anchorQc c.cfg) = true := by
  simp [Ctx.verifyQc, Qc.verify, Engine.anchorQc, Qc.anchor, Qc.isAnchor]

theorem inTree_anchor : c.InTree c.cfg.anchor := ⟨.inl rfl, .inl rfl⟩

theorem Mem.new : Mem c K (Engine.new c.cfg) where
  cfg := rfl
  high := .anchor
  accepted _ := verifyQc_anchor
  qcs := by
    intro x hx
    cases List.mem_singleton.1 hx
    exact ⟨.anchor, .inl rfl⟩
  blocked := by simp [Engine.new]
  entry := by simp [Engine.new]
  pending := by simp [Engine.new]
  votes := by simp [Engine.new]
  timeouts := by simp [Engine.new]
  blocks := by simpa [Engine.new] using inTree_anchor
  committed := inTree_anchor

theorem Mem.reanchored (lastVoted : Nat) : Mem c K (Engine.reanchored c.cfg lastVoted) :=
  { (Mem.new : Mem c K (Engine.new c.cfg)) with entry := by simp [Engine.reanchored, Engine.new] }

theorem VoteSetOk.mono {key : Nat × Hash} {set : VoteSet S} (hK : K ⊆ K') (h : VoteSetOk c K key set) :
    VoteSetOk c K' key set :=
  { h with
    sigs := fun x hx => ⟨c.U.sig_mono hK (h.sigs x hx).1, (h.sigs x hx).2⟩
    pending := fun x hx => c.U.sig_mono hK (h.pending x hx) }

theorem TimeoutSetOk.mono {r : Nat} {set : TimeoutSet S} (hK : K ⊆ K') (h : TimeoutSetOk c K r set) :
    TimeoutSetOk c K' r set :=
  { h with
    entries := fun x hx hh => hK (h.entries x hx hh)
    highQc := h.highQc.mono hK }

theorem Mem.mono (hK : K ⊆ K') (hm : Mem c K e) : Mem c K' e :=
  { hm with
    high := hm.high.mono hK
    qcs := fun x hx => ⟨(hm.qcs x hx).1.mono hK, (hm.qcs x hx).2⟩
    blocked := fun q hq => (hm.blocked q hq).mono hK
    entry := fun t ht => ⟨(hm.entry t ht).1.mono hK, (hm.entry t ht).2⟩
    pending := fun x hx =>
      ⟨(hm.pending x hx).1, (hm.pending x hx).2.1.mono hK, (hm.pending x hx).2.2⟩
    votes := fun x hx => (hm.votes x hx).mono hK
    timeouts := fun x hx => ⟨(hm.timeouts x hx).1.mono hK, (hm.timeouts x hx).2⟩ }

structure DiskOk (c : Ctx S) (K : Knowledge) (p : Persisted S) : Prop where
  epoch : p.epoch = c.cfg.epoch
  committedQc : QcOk c K p.committedQc
  highQc : QcOk c K p.highQc
  accepted : c.complete → c.verifyQc p.highQc = true
  blocks : ∀ b ∈ p.blocks, c.Known b
  committed : c.Known p.committed

variable {p : Persisted S}

theorem DiskOk.mono (hK : K ⊆ K') (h : DiskOk c K p) : DiskOk c K' p :=
  { h with
    committedQc := h.committedQc.mono hK
    highQc := h.highQc.mono hK }

theorem Mem.persisted (hm : Mem c K e) : DiskOk c K e.persisted where
  epoch := by rw [← hm.cfg]; rfl
  committedQc := by
    simp only [Engine.persisted]
    cases hl : e.qcs.lookup e.committed.hash with
    | none =>
      rw [Option.getD_none, hm.cfg]
      exact .anchor
    | some q => exact (hm.qcs _ (mem_of_lookup hl)).1
  highQc := hm.high
  accepted := hm.accepted
  blocks := by
    intro b hb
    have hb := (List.perm_insertionSort _ _).mem_iff.1 hb
    obtain ⟨x, hx, rfl⟩ := List.mem_map.1 (List.mem_filter.1 hb).1
    exact (hm.blocks x hx).2.1
  committed := hm.committed.1

theorem resumeCommitted_eq (h : c.Above p.committed) :
    ((Engine.new c.cfg : Engine S).resumeCommitted p).committed = p.committed := by
  unfold Engine.resumeCommitted
  split
  · rfl
  case isFalse hle => exact (h.resolve_right hle).symm

theorem Mem.resumeCommitted (h : DiskOk c K p) :
    Mem c K ((Engine.new c.cfg : Engine S).resumeCommitted p) := by
  unfold Engine.resumeCommitted
  split
  case isTrue hlt =>
    have hin : c.InTree p.committed := ⟨h.committed, .inr hlt⟩
    refine { (Mem.new : Mem c K (Engine.new c.cfg)) with
      qcs := ?_
      blocks := by simpa using hin
      committed := hin }
    intro x hx
    cases List.mem_singleton.1 hx
    exact ⟨h.committedQc, .inr ⟨_, h.committed, rfl, Nat.lt_succ_self _⟩⟩
  case isFalse => exact .new

theorem resumeBlocks_eq (e : Engine S) (bs : List BlockInfo) :
    ∃ blocks, e.resumeBlocks bs = { e with blocks := blocks } := by
  induction bs generalizing e with
  | nil => exact ⟨e.blocks, rfl⟩
  | cons b bs ih =>
    simp only [Engine.resumeBlocks, List.foldl_cons]
    split
    · exact ih { e with blocks := put e.blocks b.hash b }
    · exact ih e

theorem Mem.resumeBlocks {bs : List BlockInfo} (hm : Mem c K e) (hb : ∀ b ∈ bs, c.Known b) :
    Mem c K (e.resumeBlocks bs) := by
  induction bs generalizing e with
  | nil => exact hm
  | cons b bs ih =>
    have hrest : ∀ b ∈ bs, c.Known b := fun x hx => hb x (List.mem_cons_of_mem _ hx)
    simp only [Engine.resumeBlocks, List.foldl_cons]
    split
    case isTrue hlt => exact ih { hm with blocks := hm.put_blocks (hb b List.mem_cons_self) hlt } hrest
    case isFalse => exact ih hm hrest

theorem resume_committed (hp : p.epoch = c.cfg.epoch) (h : c.Above p.committed) :
    (Engine.resume c.cfg p).committed = p.committed := by
  unfold Engine.resume
  rw [if_neg (not_not.2 hp)]
  obtain ⟨blocks, hblocks⟩ := resumeBlocks_eq ((Engine.new c.cfg : Engine S).resumeCommitted p) p.blocks
  simp only [hblocks]
  exact resumeCommitted_eq h

theorem resume_eq {cfg : Config} (hp : p.epoch = cfg.epoch) :
    (Engine.resume cfg p).highQc = p.highQc ∧ (Engine.resume cfg p).lastVoted = p.lastVoted ∧
      (Engine.resume cfg p).round = max p.highQc.round p.lastVoted := by
  unfold Engine.resume
  rw [if_neg (not_not.2 hp)]
  exact ⟨rfl, rfl, rfl⟩

theorem resumeCommitted_empty (p : Persisted S) :
    ((Engine.new c.cfg : Engine S).resumeCommitted p).pending = [] ∧
      ((Engine.new c.cfg : Engine S).resumeCommitted p).timeouts = [] ∧
      ((Engine.new c.cfg : Engine S).resumeCommitted p).entryTc = none := by
  unfold Engine.resumeCommitted
  split <;> exact ⟨rfl, rfl, rfl⟩

theorem Mem.resume (h : DiskOk c K p) : Mem c K (Engine.resume c.cfg p) := by
  unfold Engine.resume
  rw [if_neg (not_not.2 h.epoch)]
  have hm := (Mem.resumeCommitted h).resumeBlocks h.blocks
  obtain ⟨blocks, hblocks⟩ := resumeBlocks_eq ((Engine.new c.cfg : Engine S).resumeCommitted p) p.blocks
  obtain ⟨hpending, htimeouts, hentry⟩ := resumeCommitted_empty (c := c) p
  simp only [hblocks] at hm ⊢
  refine { hm with
    high := h.highQc
    accepted := h.accepted
    qcs := ?_
    entry := by simp [hentry]
    pending := by simp [hpending]
    timeouts := by simp [htimeouts] }
  intro x hx
  rcases mem_put hx with rfl | hx
  · exact ⟨h.highQc, .inl rfl⟩
  · exact hm.qcs x hx

end Boltchain.Consensus
