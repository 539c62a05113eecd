import Boltchain.Lib.Chase
import Boltchain.Consensus.Inner

namespace Boltchain.Consensus

open Lib.Assoc Lib.Chase

variable {S : Scheme} {H : Hasher} {cfg : Config} {e e' : Engine S} {qc pqc : Qc S} {b p cur : BlockInfo}
  {chain : List BlockInfo} {rounds : List Nat} {l : List (Effect S)} {n : Nat}

namespace Engine

def above (e : Engine S) (cur : BlockInfo) : Option BlockInfo :=
  if cur.parent = e.committed.hash then none
  else (e.blocks.lookup cur.parent).filter fun parent => e.committed.height < parent.height

def nilBelow (e : Engine S) (cur : BlockInfo) : Option BlockInfo :=
  if e.cfg.endHeight < cur.height then e.blocks.lookup cur.parent else none

variable {x : BlockInfo}

theorem above_eq_some (h : e.above cur = some x) :
    e.blocks.lookup cur.parent = some x ∧ e.committed.height < x.height := by
  unfold above at h
  split at h
  · cases h
  · rw [Option.filter_eq_some_iff] at h
    exact ⟨h.1, of_decide_eq_true h.2⟩

theorem nilBelow_eq_some (h : e.nilBelow cur = some x) : e.blocks.lookup cur.parent = some x := by
  unfold nilBelow at h
  split at h
  · exact h
  · cases h

theorem mem_blocks {h : Hash} (hx : e.blocks.lookup h = some x) : x ∈ e.blocks.map (·.2) :=
  List.mem_map_of_mem (mem_of_lookup hx)

structure Commits (e : Engine S) (qc : Qc S) (b p : BlockInfo) (pqc : Qc S) (chain : List BlockInfo) : Prop where
  running : e.finished = false
  block : e.blocks.lookup qc.block = some b
  parent : e.blocks.lookup b.parent = some p
  round : p.round + 1 = b.round
  higher : e.committed.height < p.height
  certified : e.qcs.lookup p.hash = some pqc
  walk : e.walk (e.blocks.length + 1) p [p] = .done chain

theorem tryCommit_cases (h : e.tryCommit qc = some (e', l)) :
    (∃ blocked requested, e' = { e with blockedCommit := blocked, requested }) ∨
    ∃ b p pqc chain, e.Commits qc b p pqc chain ∧ e.commitChain p b pqc qc chain = some (e', l) := by
  have hsame : some (e, []) = some (e', l) → ∃ blocked requested, e' = { e with blockedCommit := blocked, requested } := by
    rintro ⟨⟩
    exact ⟨_, _, rfl⟩
  have hblock : ∀ {x}, some (e.blockOn qc x) = some (e', l) →
      ∃ blocked requested, e' = { e with blockedCommit := blocked, requested } := by
    intro x heq
    unfold blockOn at heq
    dsimp only at heq
    split at heq <;> cases heq <;> exact ⟨_, _, rfl⟩
  unfold tryCommit at h
  split at h
  case isTrue => exact .inl (hsame h)
  case isFalse hf =>
    split at h
    case h_1 => exact .inl (hblock h)
    case h_2 b hb =>
      split at h
      case h_1 =>
        split at h
        · exact .inl (hblock h)
        · exact .inl (hsame h)
      case h_2 p hp =>
        split at h
        case isTrue => exact .inl (hsame h)
        case isFalse hcond =>
          split at h
          case h_1 => exact .inl (hsame h)
          case h_2 pqc hqc =>
            split at h
            case h_1 => cases h
            case h_2 => exact .inl (hsame h)
            case h_3 => exact .inl (hblock h)
            case h_4 chain hwalk =>
              rw [not_or, not_not, not_le] at hcond
              exact .inr ⟨b, p, pqc, chain, ⟨Bool.eq_false_iff.2 hf, hb, hp, hcond.1, hcond.2, hqc, hwalk⟩, h⟩

theorem commitChain_cases (h : e.commitChain p b pqc qc chain = some (e', l)) :
    ∃ blocked, e' = { e with
      committed := p
      blockedCommit := blocked
      finished := decide (e.cfg.endHeight ≤ p.height) || e.finished } := by
  unfold commitChain at h
  dsimp only at h
  split at h
  · cases h
  · split at h
    case isTrue hle =>
      cases h
      exact ⟨_, by rw [decide_eq_true hle, Bool.true_or]⟩
    case isFalse hle =>
      cases h
      exact ⟨_, by rw [decide_eq_false hle, Bool.false_or]⟩

end Engine

/-- How deep the chain under a block hash is: a hash fixes its block's parent. -/
structure Ranks (H : Hasher) (cfg : Config) where
  rank : Hash → Nat
  of_nil : ∀ p r, rank p < rank (H.nilHash cfg.epoch p r)
  of_anchor : rank cfg.anchor.parent < rank cfg.anchor.hash

namespace Ranks

variable (R : Ranks H cfg)

def Ranked (b : BlockInfo) : Prop := R.rank b.parent < R.rank b.hash

instance (b : BlockInfo) : Decidable (R.Ranked b) := inferInstanceAs (Decidable (_ < _))

/-- The blocks an input brings into the tree have the parents their hashes can have. -/
def Takes (e : Engine S) : Event S → Prop
  | .message (.proposal p) => e.Stores H p → R.Ranked p.block
  | .proposed b _ _ _ => b.height ≤ cfg.endHeight → R.Ranked b
  | .block b => e.committed.height < b.height → R.Ranked b
  | .externalCommit b qc => e.committed.height < b.height → e.verifyQc qc = true → qc.block = b.hash → R.Ranked b
  | _ => True

/-- Every block of the tree stands under its hash, above its parent. -/
structure Rooted (e : Engine S) : Prop where
  cfg_eq : e.cfg = cfg
  blocks : ∀ x ∈ e.blocks, x.2.hash = x.1 ∧ R.Ranked x.2
  committed : R.Ranked e.committed

variable {R}

theorem Rooted.lookup (h : R.Rooted e) {x : Hash} (hp : e.blocks.lookup x = some p) : p.hash = x ∧ R.Ranked p :=
  h.blocks _ (mem_of_lookup hp)

theorem Rooted.put (h : R.Rooted e) (hb : R.Ranked b) : R.Rooted { e with blocks := put e.blocks b.hash b } := by
  refine ⟨h.cfg_eq, fun x hx => ?_, h.committed⟩
  obtain rfl | hx := mem_put hx
  · exact ⟨rfl, hb⟩
  · exact h.blocks x hx

theorem rooted_new (v : Nat) : R.Rooted (Engine.reanchored cfg v : Engine S) where
  cfg_eq := rfl
  blocks x hx := by
    obtain rfl := List.mem_singleton.1 hx
    exact ⟨rfl, R.of_anchor⟩
  committed := R.of_anchor

theorem stable_rooted : Stable H cfg R.Ranked (fun _ => True) (R.Rooted (S := S)) where
  cfg_eq h := h.cfg_eq
  frame h hcore := by
    obtain ⟨hcfg, hblocks, hcommitted, -⟩ := Engine.core_eq hcore
    exact ⟨hcfg.trans h.cfg_eq, hblocks ▸ h.blocks, hcommitted ▸ h.committed⟩
  enter h _ := ⟨h.cfg_eq, h.blocks, h.committed⟩
  prune h := ⟨h.cfg_eq, fun x hx => h.blocks x (List.mem_filter.1 hx).1, h.committed⟩
  commit h heq := by
    obtain ⟨blocked, requested, rfl⟩ | ⟨b, p, pqc, chain, hc, heq⟩ := Engine.tryCommit_cases heq
    · exact ⟨h.cfg_eq, h.blocks, h.committed⟩
    · obtain ⟨blocked, rfl⟩ := Engine.commitChain_cases heq
      exact ⟨h.cfg_eq, h.blocks, (h.lookup hc.parent).2⟩
  insert {e b} h _ _ hb := by
    refine h.put ?_
    obtain ⟨-, hnil⟩ | hb := hb
    · rw [Ranked, hnil]
      exact R.of_nil _ _
    · exact hb
  join _ h _ := ⟨h.cfg_eq, h.blocks, h.committed⟩
  count h _ _ _ _ := ⟨h.cfg_eq, h.blocks, h.committed⟩
  current _ := trivial

theorem Rooted.resume (h : R.Rooted e) : R.Rooted (Engine.resume cfg e.persisted) := by
  refine stable_rooted.resume (rooted_new 0) (fun _ => ?_) (fun e' b hb h' _ _ => h'.put ?_) fun _ _ h => ?_
  · refine ⟨rfl, fun x hx => ?_, h.committed⟩
    obtain rfl := List.mem_singleton.1 hx
    exact ⟨rfl, h.committed⟩
  · have hmem := (List.mem_insertionSort _).1 hb
    obtain ⟨x, hx, rfl⟩ := List.mem_map.1 (List.mem_filter.1 hmem).1
    exact (h.blocks x hx).2
  · exact ⟨h.cfg_eq, h.blocks, h.committed⟩

theorem Rooted.admitted (h : R.Rooted e) {ev : Event S} (hev : R.Takes e ev) : ev.Admitted H cfg R.Ranked (fun _ => True) R.Rooted e := by
  cases ev with
  | message m => cases m <;> exact hev
  | proposed => exact hev
  | block b =>
    have hfetched : R.Rooted (e.fetched b) := by
      unfold Engine.fetched
      split
      case isTrue hlt => exact stable_rooted.frame (h.put (hev hlt)) rfl
      case isFalse => exact stable_rooted.frame h rfl
    exact hfetched
  | externalCommit b qc =>
    intro hlt hqc hblock
    have hb := hev hlt hqc hblock
    exact ⟨h.cfg_eq, (h.put hb).blocks, hb⟩
  | _ => trivial

theorem Rooted.ends (h : R.Rooted e) {next : BlockInfo → Option BlockInfo}
    (hnext : ∀ a b, next a = some b → e.blocks.lookup a.parent = some b) (hp : R.Ranked p) :
    ∃ n z, Stops next n p z := by
  refine exists_stops (fun x => R.rank x.hash) (P := R.Ranked) (fun a b ha hs => ?_) hp
  obtain ⟨hhash, hb⟩ := h.lookup (hnext a b hs)
  exact ⟨hb, hhash ▸ ha⟩

end Ranks

/-- Where every block brought into the tree has a parent its hash can have, both loops of a commit end
wherever they begin, in every state in which an engine calls one of its functions. -/
theorem commit_walks_end (R : Ranks H cfg) {e₀ e₁ e : Engine S} {ev : Event S} {c c' : Inner S} {n k : Nat}
    (hlives : Lives H cfg R.Takes (fun _ => True) e₀) (hev : R.Takes e₀ ev) (hbegins : Begins H ev e₀ c e₁)
    (hmakes : Makes H n k c e₁ c' e) {h : Hash} {p : BlockInfo} (hp : e.blocks.lookup h = some p) :
    (∃ m z, Stops e.above m p z) ∧ ∃ m z, Stops e.nilBelow m p z := by
  have h₀ : R.Rooted e₀ := hlives.keeps Ranks.stable_rooted Ranks.rooted_new (fun _ h _ => h.resume)
    fun _ _ h hev => h.admitted hev
  obtain ⟨h₁, hargs⟩ := hbegins.keeps h₀ (h₀.admitted hev)
  have hrooted := (hmakes.keeps Ranks.stable_rooted h₁ hargs).1
  have hranked := (hrooted.lookup hp).2
  exact ⟨hrooted.ends (fun _ _ hs => (Engine.above_eq_some hs).1) hranked,
    hrooted.ends (fun _ _ hs => Engine.nilBelow_eq_some hs) hranked⟩

instance (R : Ranks H cfg) (e : Engine S) : ∀ ev, Decidable (R.Takes e ev)
  | .message (.proposal p) => inferInstanceAs (Decidable ((_ ∧ _) → R.Ranked p.block))
  | .message (.vote _) => isTrue trivial
  | .message (.timeout _) => isTrue trivial
  | .validated _ _ => isTrue trivial
  | .proposed b _ _ _ => inferInstanceAs (Decidable (b.height ≤ cfg.endHeight → R.Ranked b))
  | .block b => inferInstanceAs (Decidable (e.committed.height < b.height → R.Ranked b))
  | .externalCommit b qc => inferInstanceAs
      (Decidable (e.committed.height < b.height → e.verifyQc qc = true → qc.block = b.hash → R.Ranked b))
  | .start => isTrue trivial
  | .timeout _ => isTrue trivial

namespace Watcher

theorem rank_nil (p : Hash) (r : Nat) : (if p = 0 then 0 else ledger.hgt p + 1) <
    if ledger.hasher.nilHash (base []).epoch p r = 0 then 0
    else ledger.hgt (ledger.hasher.nilHash (base []).epoch p r) + 1 := by
  have hne : ledger.hasher.nilHash (base []).epoch p r ≠ 0 := by simp [Ledger.hasher]
  rw [if_neg hne, Ledger.hgt_nil]
  split <;> omega

def ranks : Ranks ledger.hasher (base []) where
  rank h := if h = 0 then 0 else ledger.hgt h + 1
  of_nil := rank_nil
  of_anchor := by simp [base]

def child : BlockInfo := ⟨2, 1, 2, 2⟩

/-- The place that the second member, which leads round 3, gives block 1: on top of its own child. -/
def knot : BlockInfo := ⟨1, 2, 3, 3⟩

def proposes (block : BlockInfo) (qc : Qc MockScheme) : Proposal MockScheme :=
  ⟨0, block, qc, none, (base []).validators.leader block.round, [],
    ((base []).validators.leader block.round, .proposal 7 0 block.round block.hash 0)⟩

/-- The state in which the engine, on its way to round 3, takes up the commit that waited for block 1. -/
def tied (e : Engine MockScheme) : Engine MockScheme := { e with consecutiveTimeouts := 0 }.entered 3 none

/-- A run in which the engine gets the child first and then the knot, up to that state. -/
def tangle : Option (Engine MockScheme × Engine MockScheme × Qc MockScheme) :=
  ((Engine.new (base [])).play ledger.hasher 20 (fun _ _ => True) [.start, proposal child (Watcher.qc 1 1 1)]).bind fun s =>
    (((s.1.insertBlock knot).recordQc (Watcher.qc 2 2 2)).tryCommit (Watcher.qc 2 2 2)).bind fun x =>
      x.1.blockedCommit.map fun q => (s.1, x.1, q)

def Tangled (e₀ e : Engine MockScheme) (q : Qc MockScheme) : Prop :=
  e₀.finished = false ∧ e₀.cfg.epoch = 0 ∧ e₀.checkProposal ledger.hasher (proposes knot (Watcher.qc 2 2 2)) = true ∧
    e.round ≤ 2 ∧ (tied e).blocks.lookup 2 = some child ∧ ((tied e).tryCommit q).isNone = true ∧
    (tied e).above child = some knot ∧ (tied e).above knot = some child

instance (e₀ e : Engine MockScheme) (q : Qc MockScheme) : Decidable (Tangled e₀ e q) :=
  inferInstanceAs (Decidable (_ ∧ _))

end Watcher

/-- The engine stores the place that the byzantine leader gives block 1, and follows the parents of
blocks 1 and 2 round and round. -/
theorem commit_walk_runs_forever : ∃ e₀ e : Engine MockScheme, ∃ qc : Qc MockScheme, ∃ p : BlockInfo,
    Lives Watcher.ledger.hasher (Watcher.base []) (fun _ _ => True) (fun _ => True) e₀ ∧
    Begins Watcher.ledger.hasher (Watcher.proposal Watcher.knot (Watcher.qc 2 2 2)) e₀
      (.proposal (Watcher.proposes Watcher.knot (Watcher.qc 2 2 2))) e₀ ∧
    Makes Watcher.ledger.hasher 20 20 (.proposal (Watcher.proposes Watcher.knot (Watcher.qc 2 2 2))) e₀ (.commit qc) e ∧
    e.blocks.lookup p.hash = some p ∧ e.tryCommit qc = none ∧ ¬ ∃ m z, Stops e.above m p z := by
  have hrun : Watcher.tangle.map (fun x => decide (Watcher.Tangled x.1 x.2.1 x.2.2)) = some true := by decide +kernel
  obtain ⟨x, htangle, hshows⟩ := Option.map_eq_some_iff.1 hrun
  obtain ⟨⟨e₀, a⟩, hplay, htangle⟩ := Option.bind_eq_some_iff.1 htangle
  obtain ⟨⟨e, b⟩, hcommit, htangle⟩ := Option.bind_eq_some_iff.1 htangle
  obtain ⟨q, hq, rfl⟩ := Option.map_eq_some_iff.1 htangle
  obtain ⟨hf, hep, hcheck, hround, hlookup, hnone, hdown, hup⟩ := of_decide_eq_true hshows
  refine ⟨e₀, Watcher.tied e, q, Watcher.child, Lives.new.play hplay, .proposal hep.symm hf, ?_, hlookup,
    Option.isNone_iff_eq_none.1 hnone, ?_⟩
  · exact .proposalQc hcheck (.qcEnter hcommit hround (.enterCommit (Nat.lt_succ_of_le hround) hq .self))
  · rintro ⟨m, z, hends⟩
    exact not_stops_of_cycle hdown hup hends

theorem commit_walks_end_on_chain : ∃ e : Engine MockScheme,
    e.blocks.lookup 2 = some Watcher.child ∧ (∃ m z, Stops e.above m Watcher.child z) ∧
      ∃ m z, Stops e.nilBelow m Watcher.child z := by
  have hrun : ((Engine.new (Watcher.base [])).play Watcher.ledger.hasher 20 Watcher.ranks.Takes Watcher.plain).map
      (fun s => decide (Watcher.ranks.Takes s.1 .start ∧ s.1.blocks.lookup 2 = some Watcher.child)) = some true := by
    decide +kernel
  obtain ⟨⟨e, a⟩, hplay, hshows⟩ := Option.map_eq_some_iff.1 hrun
  obtain ⟨htakes, hlookup⟩ := of_decide_eq_true hshows
  exact ⟨e, hlookup, commit_walks_end (n := 0) (k := 0) Watcher.ranks (Lives.new.play hplay) htakes .start .self hlookup⟩

end Boltchain.Consensus
