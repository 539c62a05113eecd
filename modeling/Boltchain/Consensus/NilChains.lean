import Boltchain.Consensus.Walks

namespace Boltchain.Consensus

open Lib.Assoc Lib.Chase

variable {S : Scheme} {H : Hasher} {cfg : Config} {e : Engine S} {qc pqc : Qc S} {b p cur z : BlockInfo}
  {chain : List BlockInfo} {n m : Nat}

namespace Engine

theorem nilRounds_of_ends (h : Stops e.nilBelow m cur z) (hm : m < n) (hz : z.height ≤ e.cfg.endHeight) :
    ∀ rounds, ∃ rs, e.nilRounds n cur rounds = some (rs, z) := by
  induction h generalizing n with
  | here =>
    intro rounds
    obtain ⟨n, rfl⟩ := Nat.exists_eq_add_of_lt hm
    exact ⟨rounds, by rw [nilRounds, if_neg (not_lt.2 hz)]⟩
  | @step a x z m hs hb ih =>
    intro rounds
    obtain ⟨n, rfl⟩ := Nat.exists_eq_add_of_lt hm
    have hnil : e.cfg.endHeight < a.height := by
      by_contra hle
      rw [nilBelow, if_neg hle] at hs
      cases hs
    obtain ⟨rs, hrs⟩ := ih (n := m + 1 + n) (by omega) hz (a.round :: rounds)
    exact ⟨rs, by rw [nilRounds, if_pos hnil, nilBelow_eq_some hs]; exact hrs⟩

theorem proofFor_of_ends (h : Stops e.nilBelow m p z) (hz : z.height ≤ e.cfg.endHeight) (b : BlockInfo) (pqc qc : Qc S) :
    (e.proofFor p b pqc qc).isSome = true := by
  have hle := h.le_length fun _ _ hs => mem_blocks (nilBelow_eq_some hs)
  rw [List.length_map] at hle
  unfold proofFor
  split
  · rfl
  · obtain ⟨rs, hrs⟩ := nilRounds_of_ends h (Nat.lt_succ_of_le hle) hz [b.round]
    rw [hrs]
    rfl

theorem Commits.tryCommit_isSome (hc : e.Commits qc b p pqc chain) (h : Stops e.nilBelow m p z)
    (hz : z.height ≤ e.cfg.endHeight) : (e.tryCommit qc).isSome = true := by
  have hround : ¬ (p.round + 1 ≠ b.round ∨ p.height ≤ e.committed.height) := by
    rw [not_or, not_not, not_le]
    exact ⟨hc.round, hc.higher⟩
  -- the committed block is set before the proof is made, which does not read it
  obtain ⟨proof, hproof⟩ := Option.isSome_iff_exists.1 (proofFor_of_ends
    (e := { e with committed := p, blockedCommit := e.blockedCommit.filter fun q => qc.round < q.round }) h hz b pqc qc)
  rw [tryCommit, if_neg (Bool.eq_false_iff.1 hc.running)]
  simp only [hc.block, hc.parent, if_neg hround, hc.certified, hc.walk, commitChain, hproof]
  split <;> rfl

end Engine

/-- A block fetched under the committed hash and a block committed elsewhere are no nil blocks. -/
def Engine.TakesReal (e : Engine S) : Event S → Prop
  | .block b => e.committed.height < b.height → b.hash = e.committed.hash → b.height ≤ e.cfg.endHeight
  | .externalCommit b qc =>
      e.committed.height < b.height → e.verifyQc qc = true → qc.block = b.hash → b.height ≤ e.cfg.endHeight
  | _ => True

/-- An engine whose committed block is real has it in its tree, and one whose committed block is a nil
block is finished. -/
structure Held (cfg : Config) (e : Engine S) : Prop where
  cfg_eq : e.cfg = cfg
  anchored : e.committed = cfg.anchor ∨ cfg.anchor.height < e.committed.height
  running : e.committed.height ≤ cfg.endHeight ∨ e.finished = true
  nodup : (keys e.blocks).Nodup
  keyed : ∀ x ∈ e.blocks, x.2.hash = x.1
  present : e.committed.height ≤ cfg.endHeight → e.committed.hash ∈ keys e.blocks
  real : e.committed.height ≤ cfg.endHeight → ∀ x ∈ e.blocks, x.1 = e.committed.hash →
    e.committed.height ≤ x.2.height ∧ x.2.height ≤ cfg.endHeight

namespace Held

theorem new (hend : cfg.anchor.height ≤ cfg.endHeight) (v : Nat) : Held cfg (Engine.reanchored cfg v : Engine S) where
  cfg_eq := rfl
  anchored := .inl rfl
  running := .inl hend
  nodup := List.nodup_singleton _
  keyed x hx := by rw [List.mem_singleton.1 hx]
  present _ := List.mem_singleton.2 rfl
  real _ x hx _ := by
    rw [List.mem_singleton.1 hx]
    exact ⟨le_rfl, hend⟩

theorem anchor_le (h : Held cfg e) : cfg.anchor.height ≤ e.committed.height :=
  h.anchored.elim (fun heq => heq ▸ le_rfl) le_of_lt

theorem eq_of_lookup (h : Held cfg e) {k : Hash} (hp : e.blocks.lookup k = some p) {x : Hash × BlockInfo}
    (hx : x ∈ e.blocks) (hk : x.1 = k) : x.2 = p := by
  have hmem := mem_of_lookup hp
  exact congrArg Prod.snd (List.inj_on_of_nodup_map h.nodup hx hmem hk)

theorem put (h : Held cfg e)
    (hb : e.committed.height ≤ cfg.endHeight → b.hash = e.committed.hash →
      e.committed.height ≤ b.height ∧ b.height ≤ cfg.endHeight) :
    Held cfg { e with blocks := put e.blocks b.hash b } where
  cfg_eq := h.cfg_eq
  anchored := h.anchored
  running := h.running
  nodup := nodup_keys_put h.nodup
  keyed x hx := by
    obtain rfl | hx := mem_put hx
    · rfl
    · exact h.keyed x hx
  present hle := by
    by_cases hk : e.committed.hash = b.hash
    · exact List.mem_cons.2 (.inl hk)
    · obtain ⟨x, hx⟩ := mem_keys.1 (h.present hle)
      exact mem_keys.2 ⟨x, List.mem_cons_of_mem _ (List.mem_filter.2 ⟨hx, decide_eq_true hk⟩)⟩
  real hle x hx hk := by
    obtain rfl | hx := mem_put hx
    · exact hb hle hk
    · exact h.real hle x hx hk

theorem prune (h : Held cfg e) : Held cfg e.prune where
  cfg_eq := h.cfg_eq
  anchored := h.anchored
  running := h.running
  nodup := h.nodup.sublist (List.filter_sublist.map _)
  keyed x hx := h.keyed x (List.mem_filter.1 hx).1
  present hle := by
    obtain ⟨x, hx⟩ := mem_keys.1 (h.present hle)
    exact mem_keys.2 ⟨x, List.mem_filter.2 ⟨hx, decide_eq_true (h.real hle _ hx rfl).1⟩⟩
  real hle x hx := h.real hle x (List.mem_filter.1 hx).1

theorem commit (h : Held cfg e) (hc : e.Commits qc b p pqc chain) {e' : Engine S} {l : List (Effect S)}
    (heq : e.commitChain p b pqc qc chain = some (e', l)) : Held cfg e' := by
  obtain ⟨blocked, rfl⟩ := Engine.commitChain_cases heq
  have hkey : p.hash = b.parent := h.keyed _ (mem_of_lookup hc.parent)
  refine ⟨h.cfg_eq, .inr (h.anchor_le.trans_lt hc.higher), ?_, h.nodup, h.keyed, fun _ => ?_, fun hle x hx hk => ?_⟩
  · obtain hle | hlt := le_or_gt p.height cfg.endHeight
    · exact .inl hle
    · right
      rw [h.cfg_eq, decide_eq_true hlt.le, Bool.true_or]
  · exact mem_keys.2 ⟨p, hkey ▸ mem_of_lookup hc.parent⟩
  · rw [h.eq_of_lookup hc.parent hx (hk.trans hkey)]
    exact ⟨le_rfl, hle⟩

theorem stable : Stable H cfg (fun _ => True) (fun _ => True) (Held (S := S) cfg) where
  cfg_eq h := h.cfg_eq
  frame := by
    intro e e' h hcore
    obtain ⟨hcfg, hblocks, hcommitted, hfinished, -⟩ := Engine.core_eq hcore
    refine ⟨hcfg.trans h.cfg_eq, ?_, ?_, ?_, ?_, ?_, ?_⟩
    · rw [hcommitted]; exact h.anchored
    · rw [hcommitted, hfinished]; exact h.running
    · rw [hblocks]; exact h.nodup
    · rw [hblocks]; exact h.keyed
    · rw [hblocks, hcommitted]; exact h.present
    · rw [hblocks, hcommitted]; exact h.real
  enter h _ := ⟨h.cfg_eq, h.anchored, h.running, h.nodup, h.keyed, h.present, h.real⟩
  prune h := h.prune
  commit h heq := by
    obtain ⟨blocked, requested, rfl⟩ | ⟨b, p, pqc, chain, hc, heq⟩ := Engine.tryCommit_cases heq
    · exact ⟨h.cfg_eq, h.anchored, h.running, h.nodup, h.keyed, h.present, h.real⟩
    · exact h.commit hc heq
  insert {e b} h hnew _ _ := by
    refine h.put fun hle hk => absurd (h.present hle) ?_
    rw [← hk]
    exact not_mem_keys_of_lookup hnew
  join _ h _ := ⟨h.cfg_eq, h.anchored, h.running, h.nodup, h.keyed, h.present, h.real⟩
  count h _ _ _ _ := ⟨h.cfg_eq, h.anchored, h.running, h.nodup, h.keyed, h.present, h.real⟩
  current _ := trivial

theorem resume (H : Hasher) (hend : cfg.anchor.height ≤ cfg.endHeight) (h : Held cfg e) (hle : e.committed.height ≤ cfg.endHeight) :
    Held cfg (Engine.resume cfg e.persisted) := by
  have hcommitted : ((Engine.new cfg : Engine S).resumeCommitted e.persisted).committed = e.committed := by
    unfold Engine.resumeCommitted
    split
    case isTrue => rfl
    case isFalse hlt => exact (h.anchored.resolve_right hlt).symm
  refine (stable (H := H)).resume (new hend 0) (fun hlt => ?_) (fun e' b hb h' heq hlt => ?_) fun _ _ h => ?_
  · refine ⟨rfl, .inr hlt, .inl hle, List.nodup_singleton _, fun x hx => ?_, fun _ => List.mem_singleton.2 rfl,
      fun _ x hx _ => ?_⟩
    · rw [List.mem_singleton.1 hx]
    · rw [List.mem_singleton.1 hx]
      exact ⟨le_rfl, hle⟩
  · -- a block written under the committed hash was a real one in the tree
    refine h'.put fun _ hk => ⟨hlt.le, ?_⟩
    obtain ⟨x, hx, rfl⟩ := List.mem_map.1 (List.mem_filter.1 ((List.mem_insertionSort _).1 hb)).1
    rw [heq, hcommitted, h.keyed x hx] at hk
    exact (h.real hle x hx hk).2
  · exact ⟨h.cfg_eq, h.anchored, h.running, h.nodup, h.keyed, h.present, h.real⟩

theorem admitted (h : Held cfg e) {ev : Event S} (hev : e.TakesReal ev) :
    ev.Admitted H cfg (fun _ => True) (fun _ => True) (Held cfg) e := by
  cases ev with
  | message m =>
    cases m with
    | proposal => exact fun _ => trivial
    | _ => trivial
  | proposed => exact fun _ => trivial
  | block b =>
    have hfetched : Held cfg (e.fetched b) := by
      unfold Engine.fetched
      split
      case isTrue hlt =>
        refine (stable (H := H)).frame (h.put fun _ hk => ⟨hlt.le, ?_⟩) rfl
        exact h.cfg_eq ▸ hev hlt hk
      case isFalse => exact (stable (H := H)).frame h rfl
    exact hfetched
  | externalCommit b qc =>
    intro hlt hqc hblock
    have hle : b.height ≤ cfg.endHeight := h.cfg_eq ▸ hev hlt hqc hblock
    refine ⟨h.cfg_eq, .inr (h.anchor_le.trans_lt hlt), .inl hle, nodup_keys_put h.nodup, fun x hx => ?_,
      fun _ => List.mem_cons_self, fun _ x hx hk => ?_⟩
    · obtain rfl | hx := mem_put hx
      · rfl
      · exact h.keyed x hx
    · obtain rfl | hx := List.mem_cons.1 hx
      · exact ⟨le_rfl, hle⟩
      · exact absurd hk (of_decide_eq_true (List.mem_filter.1 hx).2)
  | _ => trivial

theorem ends_of_walk (h : Held cfg e) (hle : e.committed.height ≤ cfg.endHeight)
    {out : List BlockInfo} (hwalk : e.walk n cur chain = .done out) :
    ∃ m z, Stops e.nilBelow m cur z ∧ z.height ≤ cfg.endHeight := by
  induction n generalizing cur chain with
  | zero => cases hwalk
  | succ n ih =>
    obtain hreal | hnil := le_or_gt cur.height cfg.endHeight
    · exact ⟨0, cur, .here (by rw [Engine.nilBelow, h.cfg_eq, if_neg (not_lt.2 hreal)]), hreal⟩
    · have hbelow : e.nilBelow cur = e.blocks.lookup cur.parent := by rw [Engine.nilBelow, h.cfg_eq, if_pos hnil]
      rw [Engine.walk] at hwalk
      split at hwalk
      case isTrue hparent =>
        obtain ⟨x, hx⟩ := lookup_of_mem_keys (h.present hle)
        have hxreal : x.height ≤ cfg.endHeight := (h.real hle _ (mem_of_lookup hx) rfl).2
        refine ⟨1, x, .step (by rw [hbelow, hparent, hx]) (.here ?_), hxreal⟩
        rw [Engine.nilBelow, h.cfg_eq, if_neg (not_lt.2 hxreal)]
      case isFalse =>
        split at hwalk
        case h_1 parent hlookup =>
          split at hwalk
          case isTrue =>
            obtain ⟨m, z, hends, hz⟩ := ih hwalk
            exact ⟨m + 1, z, .step (hbelow.trans hlookup) hends, hz⟩
          case isFalse => cases hwalk
        case h_2 => cases hwalk

end Held

/-- Where an engine is not restarted after it committed a nil block, every nil block it commits stands on
nil blocks and a real block of its tree, and the commit does not panic. -/
theorem nil_chains_reach_real_blocks (hend : cfg.anchor.height ≤ cfg.endHeight) {e₀ e₁ e : Engine S} {ev : Event S}
    {c : Inner S} {n k : Nat}
    (hlives : Lives H cfg Engine.TakesReal (fun e => e.committed.height ≤ cfg.endHeight) e₀) (hev : e₀.TakesReal ev)
    (hbegins : Begins H ev e₀ c e₁) (hmakes : Makes H n k c e₁ (.commit qc) e) (hc : e.Commits qc b p pqc chain) :
    (∃ m z, Stops e.nilBelow m p z ∧ z.height ≤ cfg.endHeight) ∧ (e.tryCommit qc).isSome = true := by
  have h₀ : Held cfg e₀ := hlives.keeps Held.stable (Held.new hend) (fun _ h hle => h.resume H hend hle)
    fun _ _ h hev => h.admitted hev
  obtain ⟨h₁, hargs⟩ := hbegins.keeps h₀ (h₀.admitted hev)
  have hheld := (hmakes.keeps Held.stable h₁ hargs).1
  have hle := hheld.running.resolve_right (Bool.eq_false_iff.1 hc.running)
  obtain ⟨m, z, hends, hz⟩ := hheld.ends_of_walk hle hc.walk
  exact ⟨⟨m, z, hends, hz⟩, hc.tryCommit_isSome hends (hheld.cfg_eq ▸ hz)⟩

instance (e : Engine S) : ∀ ev, Decidable (e.TakesReal ev)
  | .message _ => isTrue trivial
  | .validated _ _ => isTrue trivial
  | .proposed _ _ _ _ => isTrue trivial
  | .block b => inferInstanceAs
      (Decidable (e.committed.height < b.height → b.hash = e.committed.hash → b.height ≤ e.cfg.endHeight))
  | .externalCommit b qc => inferInstanceAs (Decidable
      (e.committed.height < b.height → e.verifyQc qc = true → qc.block = b.hash → b.height ≤ e.cfg.endHeight))
  | .start => isTrue trivial
  | .timeout _ => isTrue trivial

deriving instance DecidableEq for Walk

namespace ShortEpoch

open Watcher (ledger)

/-- An epoch of one block. The first member, whose engine this is, has a quorum alone; the second leads
rounds 2, 5 and 6. -/
def base : Config := ⟨7, 0, ⟨[3, 1], [0, 0, 1, 0, 0, 1, 1]⟩, [0], ⟨100, 0, 0, 0⟩, 1, 1000⟩

def nil (parent : Hash) (round height : Nat) : BlockInfo := ⟨ledger.hasher.nilHash 0 parent round, parent, round, height⟩

def nil3 : BlockInfo := nil 1 3 2

def nil4 : BlockInfo := nil nil3.hash 4 3

def nil5 : BlockInfo := nil nil4.hash 5 4

def nil6 : BlockInfo := nil nil5.hash 6 5

def proposes (block : BlockInfo) (qc : Qc MockScheme) : Proposal MockScheme :=
  ⟨0, block, qc, none, 1, [], (1, .proposal 7 0 block.round block.hash 0)⟩

/-- Block 1 is certified in round 1 and round 2 times out, so block 1 is not final before the nil blocks
of rounds 3 and 4 are certified: then the nil block of round 3 is. -/
def first : List (Event MockScheme) :=
  [.start, .proposed ⟨1, 100, 1, 1⟩ (Engine.anchorQc base) none [],
    .message (.timeout ⟨0, 2, Watcher.qc 1 1 1, 1, (1, .timeout 7 0 2 1), none⟩), .timeout 2]

def fifth : Proposal MockScheme := proposes nil5 (Watcher.qc 4 nil4.hash 3)

/-- The proposal of round 6 brings the certificate of the nil block of round 5. -/
def sixth : Proposal MockScheme := proposes nil6 (Watcher.qc 5 nil5.hash 4)

/-- The engine restarts after the proposal of round 5 made it commit the nil block of round 3, and gets
that proposal again. -/
def restarted : Outcome MockScheme :=
  ((Engine.new base).play ledger.hasher 20 Engine.TakesReal (first ++ [.message (.proposal fifth)])).bind fun s =>
    (Engine.resume base s.1.persisted).play ledger.hasher 20 Engine.TakesReal [.start, .message (.proposal fifth)]

/-- The state in which a proposal's certificate is tried for a commit. -/
def tried (p : Proposal MockScheme) (e : Engine MockScheme) : Engine MockScheme := (e.insertBlock p.block).recordQc p.qc

/-- What a run shows: the proposal is accepted, and its certificate, of `b`, commits `p`. -/
def Shows (m : Proposal MockScheme) (b p : BlockInfo) (chain : List BlockInfo) (e : Engine MockScheme) : Prop :=
  e.finished = false ∧ e.cfg.epoch = 0 ∧ e.checkProposal ledger.hasher m = true ∧ (tried m e).finished = false ∧
    (tried m e).blocks.lookup m.qc.block = some b ∧ (tried m e).blocks.lookup b.parent = some p ∧
    p.round + 1 = b.round ∧ (tried m e).committed.height < p.height ∧ ((tried m e).qcs.lookup p.hash).isSome = true ∧
    (tried m e).walk ((tried m e).blocks.length + 1) p [p] = .done chain

instance (m : Proposal MockScheme) (b p : BlockInfo) (chain : List BlockInfo) (e : Engine MockScheme) :
    Decidable (Shows m b p chain e) :=
  inferInstanceAs (Decidable (_ ∧ _))

theorem Shows.commits {m : Proposal MockScheme} {e : Engine MockScheme} {b p : BlockInfo} {chain : List BlockInfo}
    (h : Shows m b p chain e) (hep : m.epoch = 0) : ∃ pqc,
    Begins ledger.hasher (.message (.proposal m)) e (.proposal m) e ∧
    Makes ledger.hasher 20 20 (.proposal m) e (.commit m.qc) (tried m e) ∧
    (tried m e).Commits m.qc b p pqc chain := by
  obtain ⟨hf, hepoch, hcheck, hrunning, hblock, hparent, hround, hheight, hqc, hwalk⟩ := h
  obtain ⟨pqc, hqc⟩ := Option.isSome_iff_exists.1 hqc
  exact ⟨pqc, .proposal (hep.trans hepoch.symm) hf, .proposalQc hcheck (.qcCommit .self),
    hrunning, hblock, hparent, hround, hheight, hqc, hwalk⟩

end ShortEpoch

/-- After the nil block of round 3 was committed and the engine restarted, the commit of the nil block of
round 4 looks for block 1, which is no longer there. -/
theorem resumed_commit_panics : ∃ e₀ e : Engine MockScheme, ∃ pqc : Qc MockScheme,
    Lives Watcher.ledger.hasher ShortEpoch.base Engine.TakesReal (fun _ => True) e₀ ∧
    Begins Watcher.ledger.hasher (.message (.proposal ShortEpoch.sixth)) e₀ (.proposal ShortEpoch.sixth) e₀ ∧
    Makes Watcher.ledger.hasher 20 20 (.proposal ShortEpoch.sixth) e₀ (.commit ShortEpoch.sixth.qc) e ∧
    e.Commits ShortEpoch.sixth.qc ShortEpoch.nil5 ShortEpoch.nil4 pqc [ShortEpoch.nil4] ∧
    Stops e.nilBelow 1 ShortEpoch.nil4 ShortEpoch.nil3 ∧ e.cfg.endHeight < ShortEpoch.nil3.height ∧
    e.tryCommit ShortEpoch.sixth.qc = none := by
  have hrun : ShortEpoch.restarted.map (fun s => decide
      (ShortEpoch.Shows ShortEpoch.sixth ShortEpoch.nil5 ShortEpoch.nil4 [ShortEpoch.nil4] s.1 ∧
        (ShortEpoch.tried ShortEpoch.sixth s.1).nilBelow ShortEpoch.nil4 = some ShortEpoch.nil3 ∧
        (ShortEpoch.tried ShortEpoch.sixth s.1).nilBelow ShortEpoch.nil3 = none ∧
        (ShortEpoch.tried ShortEpoch.sixth s.1).cfg.endHeight < ShortEpoch.nil3.height ∧
        ((ShortEpoch.tried ShortEpoch.sixth s.1).tryCommit ShortEpoch.sixth.qc).isNone = true)) = some true := by
    decide +kernel
  obtain ⟨⟨e₀, a⟩, hrestarted, hshows⟩ := Option.map_eq_some_iff.1 hrun
  obtain ⟨⟨e₁, b⟩, hfirst, hsecond⟩ := Option.bind_eq_some_iff.1 hrestarted
  obtain ⟨hshows, hdown, hlast, hnil, hnone⟩ := of_decide_eq_true hshows
  obtain ⟨pqc, hbegins, hmakes, hcommits⟩ := hshows.commits rfl
  refine ⟨e₀, _, pqc, ?_, hbegins, hmakes, hcommits, .step hdown (.here hlast), hnil, Option.isNone_iff_eq_none.1 hnone⟩
  exact ((Lives.new.play hfirst).resume trivial).play hsecond

/-- Without the restart the first commit of a nil block finds block 1. -/
theorem nil_chains_reach_real_blocks_once : ∃ e : Engine MockScheme, ∃ pqc : Qc MockScheme,
    e.Commits ShortEpoch.fifth.qc ShortEpoch.nil4 ShortEpoch.nil3 pqc [⟨1, 100, 1, 1⟩, ShortEpoch.nil3] ∧
    (∃ m z, Stops e.nilBelow m ShortEpoch.nil3 z ∧ z.height ≤ 1) ∧ (e.tryCommit ShortEpoch.fifth.qc).isSome = true := by
  have hrun : ((Engine.new ShortEpoch.base).play Watcher.ledger.hasher 20 Engine.TakesReal ShortEpoch.first).map
      (fun s => decide (ShortEpoch.Shows ShortEpoch.fifth ShortEpoch.nil4 ShortEpoch.nil3
        [⟨1, 100, 1, 1⟩, ShortEpoch.nil3] s.1)) = some true := by decide +kernel
  obtain ⟨⟨e₀, a⟩, hplay, hshows⟩ := Option.map_eq_some_iff.1 hrun
  obtain ⟨pqc, hbegins, hmakes, hcommits⟩ := (of_decide_eq_true hshows).commits rfl
  have hend : ShortEpoch.base.anchor.height ≤ ShortEpoch.base.endHeight := by decide
  have htakes : e₀.TakesReal (.message (.proposal ShortEpoch.fifth)) := trivial
  exact ⟨_, pqc, hcommits, nil_chains_reach_real_blocks hend (Lives.new.play hplay) htakes hbegins hmakes hcommits⟩

end Boltchain.Consensus
