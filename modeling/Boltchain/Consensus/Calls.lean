import Boltchain.Consensus.MockScheme
import Boltchain.Consensus.Pace

namespace Boltchain.Consensus

open Lib.Assoc

variable {S : Scheme} {H : Hasher} {cfg : Config}

def Event.isStart : Event S → Bool
  | .start => true
  | _ => false

/-- An engine's states: it is created, resumed from what it wrote, and called with inputs that `ok`
allows. The flag says whether it was started since. -/
inductive Reach (H : Hasher) (cfg : Config) (ok : Engine S → Event S → Prop) : Bool → Engine S → Prop
  | new : Reach H cfg ok false (Engine.new cfg)
  | reanchored (lastVoted : Nat) : Reach H cfg ok false (Engine.reanchored cfg lastVoted)
  | resume {started e} (h : Reach H cfg ok started e) : Reach H cfg ok false (Engine.resume cfg e.persisted)
  | call {started e n ev e' l} (h : Reach H cfg ok started e) (hok : ok e ev)
      (hon : e.on H n ev = some (e', l)) : Reach H cfg ok (started || ev.isStart) e'

variable {ok : Engine S → Event S → Prop} {started : Bool}

theorem Reach.mono {ok' : Engine S → Event S → Prop} {e : Engine S}
    (hok : ∀ e ev, ok e ev → ok' e ev) (h : Reach H cfg ok started e) : Reach H cfg ok' started e := by
  induction h with
  | new => exact .new
  | reanchored v => exact .reanchored v
  | resume _ ih => exact .resume ih
  | call _ h hon ih => exact .call ih (hok _ _ h) hon

theorem Reach.paced {e : Engine S}
    (h : Reach H cfg ok started e) : e.Paced (cond started 0 1) := by
  induction h with
  | new => exact Engine.paced_new cfg
  | reanchored v => exact Engine.paced_reanchored cfg v
  | resume => exact Engine.paced_resume cfg _
  | @call started e n ev e' l _ _ hon ih =>
    cases started with
    | true => exact (Engine.on_paces (Nat.zero_le 1) ih _ _ hon).1
    | false =>
      cases ev with
      | start => exact (Engine.start_paces ih _ _ hon).1
      | _ => exact (Engine.on_paces le_rfl ih _ _ hon).1

/-- What is taken of the blocks and certificates that come from outside. -/
structure Ground (H : Hasher) (cfg : Config) where
  stored : BlockInfo → Prop
  placed : Hash → Nat → Prop
  placed_anchor : placed cfg.anchor.hash cfg.anchor.height
  placed_nil : ∀ {p k} r, cfg.endHeight ≤ k → placed p k → placed (H.nilHash cfg.epoch p r) (k + 1)

namespace Ground

variable (G : Ground H cfg)

def ctx : Ctx S where
  H := H
  cfg := cfg
  honest _ := False
  U :=
    { sig := fun _ _ => True
      agg := fun _ _ => True
      sig_mono := fun _ _ => trivial
      agg_mono := fun _ _ => trivial
      sign := fun _ => trivial
      aggregate := fun _ _ => trivial
      of_verify := fun _ _ => False.elim
      of_verifyAggregate := fun _ _ _ => False.elim }
  strict := False
  complete := False
  ordered := False
  valid b := G.placed b.hash b.height
  stored := G.stored
  placed := G.placed
  unasked := True
  imports := False
  weight_lt := False.elim
  scheme := False.elim
  placed_anchor := G.placed_anchor
  placed_valid h := h
  placed_nil := G.placed_nil

def Admits (e : Engine S) : Event S → Prop
  | .message (.proposal p) => e.Stores H p → G.stored p.block
  | .message (.vote v) => G.placed v.block v.height
  | .validated h ok => ok = true → ∀ p, e.pending.lookup h = some p →
      cfg.endHeight < p.block.height ∨ G.placed p.block.hash p.block.height
  | .proposed b _ _ _ => (b.height ≤ cfg.endHeight → G.stored b) ∧
      (cfg.endHeight < b.height ∨ G.placed b.hash b.height)
  | .block b => G.stored b
  | .externalCommit b _ => G.stored b
  | _ => True

/-- The input's blocks, votes and accepted certificates come as `G` takes them. -/
def Takes (e : Engine S) (ev : Event S) : Prop :=
  (∀ qc ∈ ev.qcs, qc.verify cfg.validators cfg.chainId cfg.epoch cfg.anchor.hash = true →
    G.placed qc.block qc.height) ∧ G.Admits e ev

def free (H : Hasher) (cfg : Config) : Ground H cfg where
  stored _ := True
  placed _ _ := True
  placed_anchor := trivial
  placed_nil _ _ _ := trivial

theorem takes_free (e : Engine S) (ev : Event S) : (free H cfg).Takes e ev := by
  refine ⟨fun _ _ _ => trivial, ?_⟩
  cases ev with
  | message m =>
    cases m with
    | proposal => exact fun _ => trivial
    | vote => trivial
    | timeout => trivial
  | validated => exact fun _ _ _ => .inr trivial
  | proposed => exact ⟨fun _ => trivial, .inr trivial⟩
  | _ => trivial

end Ground

/-- The engine with a block from another path as its committed one, if it takes it. -/
def Engine.imported (e : Engine S) : Event S → Engine S
  | .externalCommit b qc =>
    if b.height ≤ e.committed.height ∨ e.verifyQc qc = false ∨ qc.block ≠ b.hash then e
    else { e with blocks := put e.blocks b.hash b, committed := b }
  | _ => e

variable {G : Ground H cfg} {e e' : Engine S} {n : Nat} {ev : Event S} {l : List (Effect S)}

/-- Every call takes the engine through the allowed updates only, after the import it may start with. -/
theorem Ground.on_steps (hm : Mem G.ctx Set.univ e) (h : G.Takes e ev) (hon : e.on H n ev = some (e', l)) :
    Mem G.ctx Set.univ (e.imported ev) ∧ e.committed.height ≤ (e.imported ev).committed.height ∧
    Says G.ctx Set.univ l ∧ (l.any Effect.ends = true → e'.finished = true) ∧
    ∃ g', Steps G.ctx Set.univ (e.imported ev, Ghost.init) (e', g') ∧ g'.emitted = commits l := by
  have hU : ∀ ev : Event S, (G.ctx : Ctx S).U.ofEvent Set.univ ev := fun _ =>
    ⟨fun _ _ _ _ => trivial, fun _ _ => trivial⟩
  have hrest : (∀ b qc, ev ≠ .externalCommit b qc) → Mem G.ctx Set.univ (e.imported ev) ∧
      e.committed.height ≤ (e.imported ev).committed.height ∧ Says G.ctx Set.univ l ∧
      (l.any Effect.ends = true → e'.finished = true) ∧
      ∃ g', Steps G.ctx Set.univ (e.imported ev, Ghost.init) (e', g') ∧ g'.emitted = commits l := by
    intro hne
    have heq : e.imported ev = e := by
      cases ev with
      | externalCommit b qc => exact absurd rfl (hne b qc)
      | _ => rfl
    have hadm : (G.ctx : Ctx S).Admits e ev := by
      cases ev with
      | message m =>
        cases m with
        | timeout => exact False.elim
        | _ => exact h.2
      | block b => exact .inr (.inl h.2)
      | externalCommit b qc => exact absurd rfl (hne b qc)
      | _ => exact h.2
    obtain ⟨hsound, hend, g', hsteps, -, hemitted, -⟩ := Engine.on_steps hm (hU ev) False.elim h.1 hadm
      (.inl trivial) hon fun _ _ => Set.mem_univ _
    rw [heq]
    exact ⟨hm, le_rfl, hsound, hend, g', hsteps, hemitted⟩
  cases ev with
  | externalCommit b qc =>
    simp only [Engine.on, Engine.onExternalCommit] at hon
    simp only [Engine.imported]
    split at hon
    case isTrue hcond =>
      cases hon
      rw [if_pos hcond]
      exact ⟨hm, le_rfl, .nil, by rintro ⟨⟩, Ghost.init, .refl, rfl⟩
    case isFalse hcond =>
      rw [if_neg hcond]
      simp only [not_or, not_le, Bool.not_eq_false, Engine.verifyQc, hm.cfg] at hcond
      have hm' := hm.external (.inr (.inl h.2)) hcond.1
      have hqc : QcOk G.ctx Set.univ qc :=
        .of_verify False.elim (fun _ _ => trivial) (h.1 qc List.mem_cons_self hcond.2.1) hcond.2.1
      obtain ⟨hsound, hend, g', hsteps, hr⟩ := Runs.processQc (g := Ghost.init) (Runs.enterRound n) hm' hqc
        e' l hon fun _ _ => Set.mem_univ _
      exact ⟨hm', hcond.1.le, hsound, hend, g', hsteps, hr.emitted⟩
  | _ => exact hrest (by simp)

theorem Reach.mem (h : Reach H cfg G.Takes started e) : Mem G.ctx Set.univ e := by
  induction h with
  | new => exact Mem.new
  | reanchored v => exact Mem.reanchored v
  | resume _ ih => exact Mem.resume ih.persisted
  | call _ hok hon ih =>
    obtain ⟨hm, -, -, -, g', hsteps, -⟩ := Ground.on_steps ih hok hon
    exact hsteps.mem hm

structure Levels (H : Hasher) (cfg : Config) where
  hgt : Hash → Nat
  of_nil : ∀ p r, hgt (H.nilHash cfg.epoch p r) = hgt p + 1
  of_anchor : hgt cfg.anchor.hash = cfg.anchor.height

namespace Levels

variable (L : Levels H cfg)

/-- Blocks come under their height, one above their parent's, and certificates under their block's. -/
def ground : Ground H cfg where
  stored b := L.hgt b.hash = b.height ∧ b.height = L.hgt b.parent + 1
  placed h k := L.hgt h = k
  placed_anchor := L.of_anchor
  placed_nil r _ h := by rw [L.of_nil, h]

variable {L}

theorem rises {x : BlockInfo} (h : (L.ground.ctx : Ctx S).Known x) (hx : cfg.anchor.height < x.height) :
    L.hgt x.hash = x.height ∧ x.height = L.hgt x.parent + 1 := by
  rcases h with rfl | hs | ⟨-, hnil, hp⟩
  · exact absurd hx (lt_irrefl _)
  · exact hs
  · refine ⟨hp, ?_⟩
    rw [← show L.hgt x.hash = x.height from hp, hnil]
    exact L.of_nil _ _

variable {a t : Hash} {chain : List BlockInfo}

theorem lt_height_of_linked (hl : Linked a chain t)
    (hchain : ∀ z ∈ chain, L.hgt z.hash = z.height ∧ z.height = L.hgt z.parent + 1) :
    ∀ z ∈ chain, L.hgt a < z.height := by
  induction chain generalizing a with
  | nil => simp
  | cons z chain ih =>
    obtain ⟨rfl, hl⟩ := hl
    obtain ⟨hz, hparent⟩ := hchain z List.mem_cons_self
    intro y hy
    rcases List.mem_cons.1 hy with rfl | hy
    · omega
    · have hlt := ih hl (fun y hy => hchain y (List.mem_cons_of_mem _ hy)) y hy
      omega

theorem hgt_le_of_linked (hl : Linked a chain t)
    (hchain : ∀ z ∈ chain, L.hgt z.hash = z.height ∧ z.height = L.hgt z.parent + 1) : L.hgt a ≤ L.hgt t := by
  induction chain generalizing a with
  | nil => exact (congrArg L.hgt hl).le
  | cons z chain ih =>
    obtain ⟨rfl, hl⟩ := hl
    obtain ⟨hz, hparent⟩ := hchain z List.mem_cons_self
    have htop := ih hl fun y hy => hchain y (List.mem_cons_of_mem _ hy)
    omega

theorem linked_filter (hl : Linked a chain t)
    (hchain : ∀ z ∈ chain, L.hgt z.hash = z.height ∧ z.height = L.hgt z.parent + 1) :
    ∃ y, Linked a (chain.filter fun z => z.height ≤ cfg.endHeight) y ∧ (L.hgt t ≤ cfg.endHeight → y = t) := by
  induction chain generalizing a with
  | nil => exact ⟨t, hl, fun _ => rfl⟩
  | cons z chain ih =>
    obtain ⟨rfl, hl⟩ := hl
    obtain ⟨hz, hparent⟩ := hchain z List.mem_cons_self
    have hrest : ∀ y ∈ chain, L.hgt y.hash = y.height ∧ y.height = L.hgt y.parent + 1 :=
      fun y hy => hchain y (List.mem_cons_of_mem _ hy)
    obtain ⟨y, hy, htop⟩ := ih hl hrest
    by_cases hle : z.height ≤ cfg.endHeight
    · rw [List.filter_cons_of_pos (by simpa using hle)]
      exact ⟨y, ⟨rfl, hy⟩, htop⟩
    · -- everything above is dropped too
      have hnone : chain.filter (fun z => z.height ≤ cfg.endHeight) = [] := by
        rw [List.filter_eq_nil_iff]
        intro x hx
        have hlt := lt_height_of_linked hl hrest x hx
        rw [decide_eq_true_eq]
        omega
      rw [List.filter_cons_of_neg (by simpa using hle), hnone]
      refine ⟨z.parent, rfl, fun htle => ?_⟩
      have hge := hgt_le_of_linked hl hrest
      omega

/-- What a call has committed so far leads up from the block committed before it, to the block
committed last unless that one is above the epoch's end. -/
def Climbs (base : Hash) (s : Engine S × Ghost S) : Prop :=
  ∃ x, Linked base s.2.emitted x ∧ (s.1.finished = false → x = s.1.committed.hash)

variable {base : Hash}

theorem climbs_commit {g : Ghost S} {p b : BlockInfo} {qc : Qc S}
    {f : Bool} (hm : Mem L.ground.ctx Set.univ e) (h : CommitOk L.ground.ctx Set.univ e p b qc chain)
    (hf : f = true ↔ cfg.endHeight ≤ p.height) (hs : Climbs base (e, g)) :
    Climbs base ({ e with
      committed := p
      blockedCommit := e.blockedCommit.filter fun q => qc.round < q.round
      finished := f || e.finished },
      { g with emitted := g.emitted ++ chain.filter fun x => x.height ≤ cfg.endHeight }) := by
  obtain ⟨x, hx, htop⟩ := hs
  obtain rfl := htop h.running
  have hchain : ∀ z ∈ chain, L.hgt z.hash = z.height ∧ z.height = L.hgt z.parent + 1 := fun z hz =>
    rises (hm.blocks _ (h.chain z hz).1).2.1 (hm.anchor_lt (h.chain z hz).2)
  obtain ⟨y, hy, hall⟩ := linked_filter h.linked hchain
  refine ⟨y, hx.trans hy, fun hfin => hall ?_⟩
  -- an unfinished engine has committed below the epoch's end
  have hlt : ¬ cfg.endHeight ≤ p.height := fun hle => by simp [hf.2 hle] at hfin
  have hp : L.hgt p.hash = p.height := (rises (hm.blocks _ h.parent).2.1 (hm.anchor_lt h.above)).1
  omega

variable {s : Engine S × Ghost S}

theorem climbs_micro {s' : Engine S × Ghost S} (hm : Mem L.ground.ctx Set.univ s.1)
    (h : Micro L.ground.ctx Set.univ s s') (hs : Climbs base s) : Climbs base s' := by
  cases h with
  | commit f h hf => exact climbs_commit hm h hf hs
  | external hx => exact hx.elim
  | insertBlock =>
    simp only [Engine.insertBlock]
    split <;> exact hs
  | _ => exact hs

theorem climbs_steps {s' : Engine S × Ghost S} (hm : Mem L.ground.ctx Set.univ s.1)
    (h : Steps L.ground.ctx Set.univ s s') (hs : Climbs base s) : Climbs base s' := by
  induction h with
  | refl => exact hs
  | tail hsteps h ih => exact climbs_micro (Steps.mem hsteps hm) h ih

end Levels

structure Advances (e e' : Engine S) : Prop where
  round : e.round ≤ e'.round
  lastVoted : e.lastVoted ≤ e'.lastVoted
  highQc : e.highQc.round ≤ e'.highQc.round
  committed : e.committed.height ≤ e'.committed.height

theorem Engine.imported_frame (e : Engine S) (ev : Event S) :
    (e.imported ev).round = e.round ∧ (e.imported ev).lastVoted = e.lastVoted ∧
      (e.imported ev).highQc = e.highQc := by
  cases ev with
  | externalCommit b qc =>
    simp only [Engine.imported]
    split <;> exact ⟨rfl, rfl, rfl⟩
  | _ => exact ⟨rfl, rfl, rfl⟩

/-- Every call moves the engine forward only, keeps a started engine ahead of its certificates, commits
no block above the epoch's end, and signs votes of rounds above the last one voted in, of the current
round if nothing moves the engine between its seats, for proposals whose certificate it has passed. Where
blocks and certificates come under the heights of their blocks, what it commits is a chain on the block
committed before. -/
theorem core_invariants (L : Levels H cfg) :
    (∀ started (e : Engine S), Reach H cfg (fun _ _ => True) started e → ∀ n ev e' l,
      e.on H n ev = some (e', l) → Advances e e' ∧
        ((started || ev.isStart) = true → e'.highQc.round < e'.round) ∧
        (∀ bs pf, .act (.commit bs pf) ∈ l → ∀ x ∈ bs, x.height ≤ cfg.endHeight) ∧
        ∀ i ch ep r h t, .sign i (.vote ch ep r h) t ∈ l → t.lastVoted < r ∧
          (cfg.me.length ≤ 1 ∨ cfg.validators.leader (r + 1) ∉ cfg.me → t.round = r) ∧ t.qc ≤ t.highQc) ∧
    ∀ started (e : Engine S), Reach H cfg L.ground.Takes started e → ∀ n ev e' l, L.ground.Takes e ev →
      e.on H n ev = some (e', l) → ∃ x, Linked (e.imported ev).committed.hash (commits l) x ∧
        (e'.finished = false → x = e'.committed.hash) := by
  refine ⟨fun started e hreach n ev e' l hon => ?_, fun started e hreach n ev e' l hok hon => ?_⟩
  · have hm : Mem (Ground.free H cfg).ctx Set.univ e :=
      (hreach.mono fun e ev _ => Ground.takes_free e ev).mem
    obtain ⟨-, hcommitted, hsound, -, g', hsteps, -⟩ := Ground.on_steps hm (Ground.takes_free e ev) hon
    obtain ⟨hround, hlast, hhigh⟩ := e.imported_frame ev
    have hgrows := hsteps.grows
    refine ⟨⟨hround ▸ hgrows.round, hlast ▸ hgrows.lastVoted, hhigh ▸ hgrows.high,
      hcommitted.trans hgrows.committed⟩, fun hstart => ?_, fun bs pf hmem x hx => ?_,
      fun i ch ep r h t hmem => ?_⟩
    · have hpaced := (hreach.call trivial hon).paced
      rw [hstart] at hpaced
      exact hpaced
    · obtain ⟨p, b, base, chain, -, -, -, rfl, -⟩ := hsound _ hmem
      exact of_decide_eq_true (List.mem_filter.1 hx).2
    · obtain ⟨hlast, hround, hqc, -⟩ := hsound _ hmem
      exact ⟨hlast, hround, hqc⟩
  · obtain ⟨hm, -, -, -, g', hsteps, hemitted⟩ := Ground.on_steps hreach.mem hok hon
    have hclimbs := Levels.climbs_steps hm hsteps ⟨_, rfl, fun _ => rfl⟩
    rwa [Levels.Climbs, hemitted] at hclimbs

def Engine.play (H : Hasher) (n : Nat) (ok : Engine S → Event S → Prop) [∀ e ev, Decidable (ok e ev)] :
    List (Event S) → Engine S → Outcome S
  | [], e => some (e, [])
  | ev :: evs, e => if ok e ev then (e.on H n ev).andThen (play H n ok evs) else none

instance (L : Levels H cfg) (e : Engine S) : ∀ ev, Decidable (L.ground.Admits e ev)
  | .message (.proposal p) => inferInstanceAs (Decidable
      ((_ ∧ _) → L.hgt p.block.hash = p.block.height ∧ p.block.height = L.hgt p.block.parent + 1))
  | .message (.vote v) => inferInstanceAs (Decidable (L.hgt v.block = v.height))
  | .message (.timeout _) => isTrue trivial
  | .validated h true => decidable_of_iff
      (∀ p ∈ e.pending.lookup h, cfg.endHeight < p.block.height ∨ L.hgt p.block.hash = p.block.height)
      ⟨fun hp _ => hp, fun hp => hp rfl⟩
  | .validated _ false => isTrue fun h => by cases h
  | .proposed b _ _ _ => inferInstanceAs (Decidable
      ((_ → L.hgt b.hash = b.height ∧ b.height = L.hgt b.parent + 1) ∧ (_ ∨ L.hgt b.hash = b.height)))
  | .block b =>
    inferInstanceAs (Decidable (L.hgt b.hash = b.height ∧ b.height = L.hgt b.parent + 1))
  | .externalCommit b _ =>
    inferInstanceAs (Decidable (L.hgt b.hash = b.height ∧ b.height = L.hgt b.parent + 1))
  | .start => isTrue trivial
  | .timeout _ => isTrue trivial

instance (L : Levels H cfg) (e : Engine S) (ev : Event S) : Decidable (L.ground.Takes e ev) :=
  inferInstanceAs (Decidable ((∀ qc ∈ ev.qcs, _ → L.hgt qc.block = qc.height) ∧ _))

theorem Reach.play [∀ e ev, Decidable (ok e ev)]
    {evs : List (Event S)} (h : Reach H cfg ok started e) (heq : e.play H n ok evs = some (e', l)) :
    Reach H cfg ok (started || evs.any Event.isStart) e' := by
  induction evs generalizing e started l with
  | nil =>
    cases heq
    rwa [List.any_nil, Bool.or_false]
  | cons ev evs ih =>
    unfold Engine.play at heq
    split at heq
    case isFalse => cases heq
    case isTrue hok =>
      obtain ⟨e₁, a, b, hon, hrest, -⟩ := Outcome.andThen_eq_some heq
      rw [List.any_cons, ← Bool.or_assoc]
      exact ih (h.call hok hon) hrest

def stamps (l : List (Effect S)) : List (Nat × SignMsg × Stamp) :=
  l.filterMap fun
    | .sign i m t => some (i, m, t)
    | _ => none

theorem mem_of_mem_stamps {l : List (Effect S)} {x : Nat × SignMsg × Stamp} (h : x ∈ stamps l) :
    .sign x.1 x.2.1 x.2.2 ∈ l := by
  obtain ⟨a, ha, heq⟩ := List.mem_filterMap.1 h
  split at heq
  · cases heq
    exact ha
  · cases heq

namespace Watcher

def ledger : Ledger where
  blocks := [⟨1, 100, 1, 1⟩, ⟨2, 1, 2, 2⟩, ⟨3, 2, 3, 3⟩]
  fresh := by decide
  height := by decide

/-- A member with all the weight and another one, which the engine of `me` watches or runs. -/
def base (me : List Nat) : Config := ⟨7, 0, ⟨[3, 1], [0, 0, 0, 1]⟩, me, ⟨100, 0, 0, 0⟩, 50, 1000⟩

def levels : Levels ledger.hasher (base []) where
  hgt := ledger.hgt
  of_nil _ _ := Ledger.hgt_nil _ _ _
  of_anchor := by simp [base, ledger, Ledger.hgt, Ledger.find]

def qc (round : Nat) (block : Hash) (height : Nat) : Qc MockScheme :=
  ⟨0, round, block, height, [1], some [(0, .vote 7 0 round block)]⟩

def proposal (block : BlockInfo) (qc : Qc MockScheme) : Event MockScheme :=
  .message (.proposal ⟨0, block, qc, none, (base []).validators.leader block.round, [],
    ((base []).validators.leader block.round, .proposal 7 0 block.round block.hash 0)⟩)

def own : Event MockScheme := .proposed ⟨1, 100, 1, 1⟩ (Engine.anchorQc (base [])) none []

def nil : Hash := ledger.hasher.nilHash 0 1 2

/-- The certificate of block 1 under the height 50 puts a nil block on it, whose own certificate under
the height 2 puts a real block on top. -/
def skipped : List (Event MockScheme) :=
  [.start, proposal ⟨1, 100, 1, 1⟩ (Engine.anchorQc (base [])), proposal ⟨nil, 1, 2, 51⟩ (qc 1 1 50),
    proposal ⟨3, nil, 4, 3⟩ (qc 2 nil 2), proposal ⟨4, 3, 5, 4⟩ (qc 4 3 3)]

def plain : List (Event MockScheme) :=
  [.start, proposal ⟨1, 100, 1, 1⟩ (Engine.anchorQc (base [])), proposal ⟨2, 1, 2, 2⟩ (qc 1 1 1)]

def third : Event MockScheme := proposal ⟨3, 2, 3, 3⟩ (qc 2 2 2)

end Watcher

/-- A node with two seats, the first of which completes the certificate alone, signs the second vote in
the next round; and a certificate under a false height makes an engine leave out a block it commits. -/
theorem calls_go_astray :
    (∃ started e e' l t, Reach Watcher.ledger.hasher (Watcher.base [0, 1]) (fun _ _ => True) started e ∧
      e.on Watcher.ledger.hasher 20 Watcher.own = some (e', l) ∧
      .sign 1 (.vote 7 0 1 1) t ∈ l ∧ t.round = 2) ∧
    ∃ started e e' l, Reach Watcher.ledger.hasher (Watcher.base []) (fun _ _ => True) started e ∧
      e.on Watcher.ledger.hasher 20 (Watcher.proposal ⟨5, 4, 6, 5⟩ (Watcher.qc 5 4 4)) = some (e', l) ∧
      ¬ ∃ x, Linked e.committed.hash (commits l) x := by
  have htwin : ((Engine.new (Watcher.base [0, 1])).play Watcher.ledger.hasher 20 (fun _ _ => True) [.start]).bind
      (fun s => (s.1.on Watcher.ledger.hasher 20 Watcher.own).map fun x =>
        decide ((1, .vote 7 0 1 1, ⟨2, 0, 1, 0⟩) ∈ stamps x.2)) = some true := by decide +kernel
  have hskip : ((Engine.new (Watcher.base [])).play Watcher.ledger.hasher 20 (fun _ _ => True)
      Watcher.skipped).bind (fun s => (s.1.on Watcher.ledger.hasher 20
        (Watcher.proposal ⟨5, 4, 6, 5⟩ (Watcher.qc 5 4 4))).map fun x => (s.1.committed.hash, commits x.2)) =
      some (1, [⟨3, Watcher.nil, 4, 3⟩]) := by decide +kernel
  obtain ⟨⟨e, a⟩, heq, hbind⟩ := Option.bind_eq_some_iff.1 htwin
  obtain ⟨⟨e', l⟩, hon, hl⟩ := Option.map_eq_some_iff.1 hbind
  obtain ⟨⟨w, b⟩, hweq, hwbind⟩ := Option.bind_eq_some_iff.1 hskip
  obtain ⟨⟨w', m⟩, hwon, hm⟩ := Option.map_eq_some_iff.1 hwbind
  obtain ⟨hcommitted, hcommits⟩ := Prod.mk.inj hm
  refine ⟨⟨_, e, e', l, _, Reach.new.play heq, hon, mem_of_mem_stamps (of_decide_eq_true hl), rfl⟩,
    _, w, w', m, Reach.new.play hweq, hwon, ?_⟩
  rintro ⟨x, hx⟩
  rw [hcommitted, hcommits] at hx
  exact absurd hx.1 (by decide)

/-- Under true heights the third proposal commits block 1 on the anchor. -/
theorem core_invariants_on_chain :
    ∃ e e' l, e.on Watcher.ledger.hasher 20 Watcher.third = some (e', l) ∧ commits l = [⟨1, 100, 1, 1⟩] ∧
      Advances e e' ∧ e'.highQc.round < e'.round ∧
      ∃ x, Linked (e.imported Watcher.third).committed.hash (commits l) x := by
  have hplay : ((Engine.new (Watcher.base [])).play Watcher.ledger.hasher 20 Watcher.levels.ground.Takes
      Watcher.plain).bind (fun s => (s.1.on Watcher.ledger.hasher 20 Watcher.third).map fun x =>
        (commits x.2, decide (Watcher.levels.ground.Takes s.1 Watcher.third))) =
      some ([⟨1, 100, 1, 1⟩], true) := by decide +kernel
  obtain ⟨⟨e, a⟩, heq, hbind⟩ := Option.bind_eq_some_iff.1 hplay
  obtain ⟨⟨e', l⟩, hon, hl⟩ := Option.map_eq_some_iff.1 hbind
  obtain ⟨hcommits, htakes⟩ := Prod.mk.inj hl
  have hreach := Reach.new.play heq
  obtain ⟨hall, hlinked⟩ := core_invariants (S := MockScheme) Watcher.levels
  obtain ⟨hadv, hahead, -⟩ := hall _ e (hreach.mono fun _ _ _ => trivial) _ _ _ _ hon
  obtain ⟨x, hx, -⟩ := hlinked _ e hreach _ _ _ _ (of_decide_eq_true htakes) hon
  exact ⟨e, e', l, hon, hcommits, hadv, hahead (by decide), x, hx⟩

end Boltchain.Consensus
