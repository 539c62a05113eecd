import Boltchain.Consensus.Invariant
import Boltchain.Consensus.MockScheme
import Boltchain.Consensus.Pace

namespace Boltchain.Consensus

variable {S : Scheme} {ι : Type}

def Engine.certs (e : Engine S) : List (Qc S) :=
  e.highQc :: (e.qcs.map (·.2) ++ e.blockedCommit.toList ++ e.entryTc.toList.map (·.highQc)
    ++ e.timeouts.map (·.2.highQc) ++ e.pending.flatMap (·.2.qcs))

section

variable {c : Ctx S} {K : Knowledge} {e : Engine S}

theorem Checked.qcs {p : Proposal S} (h : Checked c K p) : ∀ qc ∈ p.qcs, QcOk c K qc := by
  intro qc hqc
  rcases List.mem_cons.1 hqc with rfl | hqc
  · exact h.qc
  · obtain ⟨tc, htc, rfl⟩ := List.mem_map.1 hqc
    exact (h.tc tc (Option.mem_toList.1 htc)).2.highQc

theorem Mem.certs (hm : Mem c K e) : ∀ qc ∈ e.certs, QcOk c K qc := by
  intro qc hqc
  simp only [Engine.certs, List.mem_cons, List.mem_append, List.mem_map, List.mem_flatMap,
    Option.mem_toList] at hqc
  obtain rfl | (((⟨x, hx, rfl⟩ | hb) | ⟨tc, htc, rfl⟩) | ⟨x, hx, rfl⟩) | ⟨x, hx, hp⟩ := hqc
  · exact hm.high
  · exact (hm.qcs x hx).1
  · exact hm.blocked qc hb
  · exact (hm.entry tc htc).1.highQc
  · exact (hm.timeouts x hx).1.highQc
  · exact (hm.pending x hx).2.1.qcs qc hp

theorem Action.Sound.checkProposal {r : Nat} {qc : Qc S} {tc : Option (Tc S)} {b : BlockInfo}
    (payload : Bytes) (h : (Action.propose r qc tc).Sound c K) (hc : c.complete) (ho : c.ordered) (hturn : qc.round < r)
    (hcfg : e.cfg = c.cfg) (hparent : b.parent = qc.block) (hround : b.round = r)
    (hheight : b.height = qc.height + 1) :
    e.checkProposal c.H (e.ownProposal c.H b qc tc payload) = true := by
  obtain ⟨hcerts, hverify, htc, hend⟩ := h
  have hnil : e.isNilHeight (qc.height + 1) = false := by
    rw [Engine.isNilHeight, hcfg]
    exact decide_eq_false (by omega)
  have hqc : e.verifyQc qc = true := by
    rw [Engine.verifyQc, hcfg]
    exact hverify hc
  have hpos : b.round ≠ 0 := by omega
  simp only [Engine.checkProposal, Engine.ownProposal, hnil, hqc, (c.scheme hc).1.sign, hparent, hheight,
    beq_self_eq_true, Bool.not_false, Bool.true_or, Bool.and_true, Bool.true_and, Bool.and_eq_true,
    bne_iff_ne]
  refine ⟨⟨hpos, decide_eq_true (hround ▸ hturn)⟩, ?_⟩
  cases tc with
  | none => rfl
  | some t =>
    rw [Bool.and_eq_true, beq_iff_eq, hround, Engine.verifyTc, hcfg]
    exact ⟨htc t rfl, (hcerts.tc t rfl).verified hc ho⟩

end

namespace Net

structure Heights (net : Net S ι) where
  hgt : Hash → Nat
  of_valid : ∀ {b}, net.valid b → hgt b.hash = b.height
  of_nil : ∀ p r, hgt (net.H.nilHash net.base.epoch p r) = hgt p + 1
  of_anchor : hgt net.base.anchor.hash = net.base.anchor.height

def counted : Event S → Option (Vote S)
  | .message (.vote v) => some v
  | _ => none

def reported : Event S → Option (Timeout S)
  | .message (.timeout t) => some t
  | _ => none

namespace Heights

variable {net : Net S ι} (P : net.Heights)

/-- The accepted certificates and the votes of an input name the heights of their blocks. -/
def levels (ev : Event S) : Prop :=
  (∀ qc ∈ ev.qcs, qc.verify net.base.validators net.base.chainId net.base.epoch net.base.anchor.hash = true →
    P.hgt qc.block = qc.height) ∧
  ∀ v ∈ counted ev, P.hgt v.block = v.height

/-- Inputs that name true heights, and whose timeouts report no lower certificate than the same
signer's before. -/
def trueHeights (e : Engine S) (ev : Event S) : Prop := P.levels ev ∧ ∀ t ∈ reported ev, e.NotLower t

def terms (strict complete ordered : Prop) (stored : BlockInfo → Prop)
    (scheme : complete → S.Complete ∧ net.base.validators.len ≤ 65536) : net.Terms where
  strict := strict
  stored := stored
  complete := complete
  ordered := ordered
  placed h k := P.hgt h = k
  scheme := scheme
  placed_anchor := P.of_anchor
  placed_valid := P.of_valid
  placed_nil r _ h := by rw [P.of_nil, h]

theorem fits_trueHeights (hS : S.Complete ∧ net.base.validators.len ≤ 65536) :
    Fits net (P.terms False True True (fun _ => True) fun _ => hS) P.trueHeights where
  clean h := h.elim
  stores _ _ := trivial
  valid _ := trivial
  imports _ _ := trivial
  levels h := h.1.1
  votes h := h.1.2 _ rfl
  reports h _ := h.2 _ rfl

end Heights

variable {net : Net S ι} {w : ι → Node S} {ok : Engine S → Event S → Prop} [DecidableEq ι]

theorem Run.paced (h : net.Run ok w) (ν : ι) : (w ν).eng.Paced 1 := by
  induction h with
  | refl => exact Engine.paced_new _
  | @tail w w' _ hstep ih =>
    cases hstep with
    | handle μ n ev save hdel hpr hok hon hsave =>
      by_cases hν : ν = μ
      · subst hν
        rw [Function.update_self]
        exact (Engine.on_paces le_rfl ih _ _ hon).1
      · rwa [Function.update_of_ne hν]
    | crash μ =>
      by_cases hν : ν = μ
      · subst hν
        rw [Function.update_self, Node.restart]
        split
        · exact Engine.paced_new _
        · exact Engine.paced_resume _ _
      · rwa [Function.update_of_ne hν]

/-- In every run whose inputs name true heights, every certificate an engine keeps names its block's
height, and whenever the engine asks for a proposal, it accepts the child its node builds. -/
theorem certificates_true (P : net.Heights) (hS : S.Complete) (hlen : net.base.validators.len ≤ 65536)
    (hrun : net.Run P.trueHeights w) (ν : ι) :
    (∀ qc ∈ (w ν).eng.certs, P.hgt qc.block = qc.height) ∧
    ∀ n ev e l, net.Delivers w ν ev → net.Promises (w ν).eng ev → P.trueHeights (w ν).eng ev →
      (w ν).eng.on net.H n ev = some (e, l) → ∀ r qc tc, .act (.propose r qc tc) ∈ l →
      ∀ (b : BlockInfo) payload (e' : Engine S), b.parent = qc.block → b.round = r → b.height = P.hgt qc.block + 1 →
        e'.cfg = net.cfg ν → e'.checkProposal net.H (e'.ownProposal net.H b qc tc payload) = true := by
  have hf := P.fits_trueHeights ⟨hS, hlen⟩
  obtain ⟨g, gd, hnode⟩ := Run.nodeOk .trivial hf hrun ν
  refine ⟨fun qc hqc => (hnode.mem.certs qc hqc).height, ?_⟩
  intro n ev e l hdel hpr hok hon r qc tc hmem b payload e' hparent hround hheight hcfg
  obtain ⟨w', -, -, hsound, -⟩ := Run.on_says hf hrun hdel hpr hok hon
  have hpropose := hsound _ hmem
  have hturn : qc.round < r := (Engine.on_paces le_rfl (hrun.paced ν) _ _ hon).2 _ hmem
  refine Action.Sound.checkProposal payload hpropose trivial trivial hturn hcfg hparent hround ?_
  rw [hheight, hpropose.1.qc.height]

end Net

/-- The call asks for a proposal, and the engine would drop `b` as one. -/
def Outcome.drops (H : Hasher) (o : Outcome S) (b : BlockInfo) : Bool :=
  match o with
  | none => false
  | some (e, l) => l.any fun
    | .act (.propose r qc tc) => b.round == r && b.parent == qc.block
      && !e.checkProposal H (e.ownProposal H b qc tc [])
    | _ => false

instance (e : Engine S) (t : Timeout S) : Decidable (e.NotLower t) :=
  inferInstanceAs (Decidable (∀ x ∈ e.timeouts, x.1 = t.round → ∀ y ∈ x.2.entries, _))

instance {net : Net S ι} (P : net.Heights) (ev : Event S) : Decidable (P.levels ev) :=
  inferInstanceAs (Decidable (_ ∧ _))

instance {net : Net S ι} (P : net.Heights) (e : Engine S) (ev : Event S) : Decidable (P.trueHeights e ev) :=
  inferInstanceAs (Decidable (_ ∧ _))

def Ledger.heights (L : Ledger) (net : Net MockScheme ι) (hH : net.H = L.hasher)
    (hv : ∀ {b}, net.valid b → b ∈ L.blocks) (ha : L.hgt net.base.anchor.hash = net.base.anchor.height) :
    net.Heights where
  hgt := L.hgt
  of_valid := @hgt_of_valid _ L net @hv
  of_nil p r := by
    rw [hH]
    exact hgt_nil _ p r
  of_anchor := ha

namespace Triad

/-- Three members of weights 2, 3 and 2. The last one is not honest and leads round 2. -/
def base : Config := ⟨7, 0, ⟨[2, 3, 2], [0, 1, 2, 0, 1, 1, 2]⟩, [], ⟨100, 0, 0, 0⟩, 50, 1000⟩

def ledger : Ledger where
  blocks := [⟨1, 100, 1, 1⟩, ⟨2, 1, 2, 2⟩, ⟨3, 1, 3, 2⟩]
  fresh := by decide
  height := by decide

def net : Net MockScheme Bool where
  H := ledger.hasher
  base := base
  me ν := if ν then [1] else [0]
  U := MockScheme.unforgeable _
  valid b := b ∈ ledger.blocks
  imports := False
  byzantine := {2}
  weight_lt := by decide
  disjoint := @Net.disjoint_pair
  honest_or := by decide
  byzantine_lt := by decide

instance : DecidablePred net.valid := fun b => inferInstanceAs (Decidable (b ∈ ledger.blocks))

instance : Decidable net.imports := inferInstanceAs (Decidable False)

theorem mem_nodes (μ : Bool) : μ ∈ [false, true] := by cases μ <;> decide

def heights : net.Heights := ledger.heights net rfl (fun h => h) (by simp [net, base, ledger, Ledger.hgt, Ledger.find])

/-- The certificate of block 1, made of the votes of members 1 and 2, under any height. -/
def qc (height : Nat) : Qc MockScheme :=
  ⟨0, 1, 1, height, [6], some [(1, .vote 7 0 1 1), (2, .vote 7 0 1 1)]⟩

def proposal (height : Nat) : Event MockScheme :=
  .message (.proposal ⟨0, ⟨2, 1, 2, height + 1⟩, qc height, none, 2, [], (2, .proposal 7 0 2 2 0)⟩)

def timeout (round i : Nat) (high : Qc MockScheme) : Event MockScheme :=
  .message (.timeout ⟨0, round, high, i, (i, .timeout 7 0 round high.round), none⟩)

/-- Member 1 proposes block 1, but does not see its certificate and gives up on rounds 1 and 2. -/
def silence : List (Bool × Event MockScheme) :=
  [(true, .start), (true, .proposed ⟨1, 100, 1, 1⟩ (Engine.anchorQc base) none []), (true, .timeout 1),
    (true, timeout 1 2 (Engine.anchorQc base)), (true, .timeout 2), (false, .start)]

def forged : List (Bool × Event MockScheme) := silence ++ [(false, proposal 7)]

/-- Member 0 sees it in a timeout of member 2, which then reports the anchor. -/
def lowered : List (Bool × Event MockScheme) :=
  silence ++ [(false, timeout 2 2 (qc 1)), (false, timeout 2 2 (Engine.anchorQc base))]

def plain : List (Bool × Event MockScheme) := silence ++ [(false, proposal 1)]

/-- The timeout of member 1 that lets member 0 into round 3, which it leads. -/
def last : Event MockScheme := timeout 2 1 (Engine.anchorQc base)

end Triad

/-- A certificate under a false height is kept, and so is a timeout certificate that reports less than
its certificate; in both cases the leader asks for a proposal on it and drops it. -/
theorem leader_drops_proposal :
    (Triad.net.Run (fun _ _ => True) (Triad.net.replay 20 Triad.net.initial (Triad.forged ++ [(false, Triad.last)])) ∧
      (∃ qc ∈ (Triad.net.replay 20 Triad.net.initial Triad.forged false).eng.certs,
        qc.block = 1 ∧ qc.height = 7) ∧
      ((Triad.net.replay 20 Triad.net.initial Triad.forged false).eng.on Triad.net.H 20 Triad.last).drops
        Triad.net.H ⟨3, 1, 3, 2⟩ = true) ∧
    Triad.net.Run (fun _ _ => True) (Triad.net.replay 20 Triad.net.initial (Triad.lowered ++ [(false, Triad.last)])) ∧
      ((Triad.net.replay 20 Triad.net.initial Triad.lowered false).eng.on Triad.net.H 20 Triad.last).drops
        Triad.net.H ⟨3, 1, 3, 2⟩ = true :=
  ⟨⟨Net.Run.replay [false, true] Triad.mem_nodes rfl .refl (by decide +kernel), by decide +kernel,
    by decide +kernel⟩, Net.Run.replay [false, true] Triad.mem_nodes rfl .refl (by decide +kernel),
    by decide +kernel⟩

/-- Under the true height member 0 asks for a proposal in round 3 and accepts it. -/
theorem leader_keeps_proposal :
    (∀ qc ∈ (Triad.net.replay 20 Triad.net.initial Triad.plain false).eng.certs,
      Triad.heights.hgt qc.block = qc.height) ∧
    ∃ e l, (Triad.net.replay 20 Triad.net.initial Triad.plain false).eng.on Triad.net.H 20 Triad.last =
      some (e, l) ∧ asks l = [3] ∧ ∀ qc tc, .act (.propose 3 qc tc) ∈ l → qc.block = 1 →
        ∀ e' : Engine MockScheme, e'.cfg = Triad.net.cfg false →
          e'.checkProposal Triad.net.H (e'.ownProposal Triad.net.H ⟨3, 1, 3, 2⟩ qc tc []) = true := by
  have hrun : Triad.net.Run Triad.heights.trueHeights
      (Triad.net.replay 20 Triad.net.initial Triad.plain) :=
    Net.Run.replay [false, true] Triad.mem_nodes rfl .refl (by decide +kernel)
  obtain ⟨hcerts, hproposals⟩ :=
    Net.certificates_true Triad.heights MockScheme.complete (by decide) hrun false
  have hasks : (((Triad.net.replay 20 Triad.net.initial Triad.plain false).eng.on Triad.net.H 20
      Triad.last).map fun x => asks x.2) = some [3] := by decide +kernel
  obtain ⟨⟨e, l⟩, hon, hl⟩ := Option.map_eq_some_iff.1 hasks
  refine ⟨hcerts, e, l, hon, hl, fun qc tc hmem hblock e' hcfg => ?_⟩
  refine hproposals 20 Triad.last e l (Net.delivers_sound [false, true] Triad.mem_nodes rfl (by decide +kernel))
    trivial (by decide +kernel) hon 3 qc tc hmem _ _ e' hblock.symm rfl ?_ hcfg
  rw [hblock]
  decide +kernel

end Boltchain.Consensus
