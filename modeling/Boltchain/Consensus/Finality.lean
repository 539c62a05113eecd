import Boltchain.Consensus.Protocol
import Boltchain.Consensus.MockScheme

namespace Boltchain.Consensus

open Lib.TwoChain

variable {S : Scheme} {ι : Type}

namespace Net

variable (net : Net S ι)

/-- A certificate the committee's verifiers accept, made of signatures that left the nodes. -/
structure Certifies (w : ι → Node S) (qc : Qc S) : Prop where
  epoch : qc.epoch = net.base.epoch
  real : qc.isAnchor = false
  clean : qc.Clean
  made : net.U.ofQc (durable w) qc
  accepted : qc.verify net.base.validators net.base.chainId net.base.epoch net.base.anchor.hash = true

/-- A finality proof of `x` that verifiers accept, made of signatures that left the nodes. -/
structure Proves (w : ι → Node S) (pf : CommitProof S) (x : Hash) : Prop where
  epoch : pf.qc.epoch = net.base.epoch
  clean : pf.qc.Clean ∧ pf.childQc.Clean
  made : net.U.ofQc (durable w) pf.qc ∧ net.U.ofQc (durable w) pf.childQc
  accepted : pf.verify net.H net.base.validators net.base.chainId net.base.anchor.hash = some x

/-- Places of proof-of-stake blocks: the hash commits to the round as well. -/
structure Dated extends net.Places where
  rnd : Hash → Nat
  round_of_valid : ∀ {b}, net.valid b → rnd b.hash = b.round
  round_of_nil : ∀ p r, rnd (net.H.nilHash net.base.epoch p r) = r

variable {net} {w : ι → Node S}

theorem Certifies.voted {qc : Qc S} (h : net.Certifies w qc) :
    Voted net.base (fun i => ∃ ν, i ∈ net.me ν) (durable w) qc.round qc.block := by
  obtain ⟨hepoch, -, a, hs, hq, hl, hv⟩ := Qc.verify_cases h.real h.accepted
  rw [hepoch] at hv
  exact Backed.of_nodup _ _ net.weight_lt h.clean hl hq fun i hi hh =>
    net.U.of_verifyAggregate (h.made a hs) hv hi hh

theorem Places.nilChain (P : net.Places) {rounds : List Nat} {start : Hash} (hne : rounds ≠ []) :
    ∀ {c c'}, nilChain net.H net.base.epoch rounds (c, start) = c' →
      P.par c'.2 = c'.1 ∧ Descends P.par c'.1 start := by
  induction rounds generalizing start with
  | nil => exact absurd rfl hne
  | cons r rs ih =>
    rintro c c' rfl
    cases rs with
    | nil => exact ⟨(P.of_nil start r).1, .refl _⟩
    | cons r' rs =>
      obtain ⟨hpar, hdesc⟩ := ih (List.cons_ne_nil _ _)
        (rfl : Consensus.nilChain net.H net.base.epoch (r' :: rs) (start, _) = _)
      refine ⟨hpar, Descends.trans ?_ hdesc⟩
      exact ⟨1, (P.of_nil start r).1⟩

variable {pf : CommitProof S} {x : Hash}

theorem Places.linked (P : net.Places)
    (hepoch : pf.qc.epoch = net.base.epoch)
    (h : pf.verify net.H net.base.validators net.base.chainId net.base.anchor.hash = some x) :
    P.par pf.childQc.block = pf.qc.block ∧ Descends P.par pf.qc.block x := by
  have hlinks := (Option.ite_none_left_eq_some.1 h).2
  cases hrounds : pf.nilRounds with
  | nil =>
    simp only [hrounds] at hlinks
    cases hdec : net.H.decodeHeader pf.childHeader with
    | none => simp [hdec] at hlinks
    | some child =>
      simp only [hdec, Option.ite_none_right_eq_some, Bool.and_eq_true, beq_iff_eq,
        Option.some_inj] at hlinks
      obtain ⟨⟨⟨⟨⟨hhash, hparent⟩, -⟩, hcommitted⟩, -⟩, hx⟩ := hlinks
      refine ⟨?_, ?_⟩
      · rw [← hhash, P.of_header hdec, hparent]
      · rw [← hx, hcommitted]
        exact .refl _
  | cons r rs =>
    simp only [hrounds, Option.ite_none_right_eq_some, Bool.and_eq_true, beq_iff_eq,
      Option.some_inj] at hlinks
    obtain ⟨⟨⟨⟨hcur, hprev⟩, -⟩, -⟩, hx⟩ := hlinks
    obtain ⟨hpar, hdesc⟩ := P.nilChain (List.cons_ne_nil r rs)
      (rfl : Consensus.nilChain net.H net.base.epoch (r :: rs) (pf.committed, pf.committed) = _)
    rw [hepoch] at hcur hprev
    rw [hcur, hprev] at hpar
    rw [hprev, hx] at hdesc
    exact ⟨hpar, hdesc⟩

theorem Proves.certified (h : net.Proves w pf x) :
    net.Certifies w pf.qc ∧ net.Certifies w pf.childQc ∧ pf.childQc.round = pf.qc.round + 1 := by
  have hcerts := (Option.ite_none_left_eq_some.1 h.accepted).1
  simp only [Bool.not_eq_true', Bool.not_eq_false, Bool.and_eq_true, beq_iff_eq] at hcerts
  obtain ⟨⟨⟨⟨⟨hround, -⟩, hce⟩, hna⟩, hqc⟩, hchild⟩ := hcerts
  rw [h.epoch] at hce hqc hchild
  have hnc : pf.childQc.isAnchor = false := by
    rw [Qc.isAnchor, hround]
    rfl
  exact ⟨⟨h.epoch, hna, h.clean.1, h.made.1, hqc⟩, ⟨hce, hnc, h.clean.2, h.made.2, hchild⟩, hround⟩

theorem Run.follows [DecidableEq ι] {T : net.Terms} {ok : Engine S → Event S → Prop}
    (hT : T.strict) (hf : Fits net T ok) (h : net.Run ok w) : ∃ gd, net.Follows T w gd := by
  choose g gd hok using Run.nodeOk .trivial hf h
  exact ⟨gd, fun ν => ⟨(hok ν).written, hT, (hok ν).safe_disk⟩⟩

def cleanInputs (_ : Engine S) (ev : Event S) : Prop := ∀ qc ∈ ev.qcs, qc.Clean

theorem fits_cleanInputs : Fits net (.plain fun _ => True) cleanInputs where
  clean _ _ _ h := h
  stores _ _ := trivial
  valid _ := trivial
  imports _ _ := trivial
  levels _ _ _ _ := trivial
  votes _ := trivial
  reports _ h := h.elim

section

variable {T : net.Terms} {gd : ι → Ghost S} (hfol : net.Follows T w gd)

include hfol

theorem Follows.twoChain (P : net.Places) {pf : CommitProof S} {x : Hash} (h : net.Proves w pf x) :
    (net.system P.par gd).Certified (pf.qc.round + 1) pf.childQc.block ∧
      (net.system P.par gd).Certified pf.qc.round (P.par pf.childQc.block) ∧
      Descends P.par (P.par pf.childQc.block) x := by
  obtain ⟨hqc, hchild, hround⟩ := h.certified
  obtain ⟨hpar, hdesc⟩ := P.linked h.epoch h.accepted
  rw [hpar, ← hround]
  exact ⟨hfol.certified hchild.voted, hfol.certified hqc.voted, hdesc⟩

variable {b : Hash} {r : Nat}

theorem Follows.round_of_certified (P : net.Dated)
    (h : (net.system P.par gd).Certified r b) : P.rnd b = r := by
  obtain ⟨i, q, -, ν, -, p, hp, rfl, rfl, -⟩ := (hfol.rules P.toPlaces).exists_vote h
  obtain ⟨-, hstrict, v, k, hsafe⟩ := hfol ν
  rcases hsafe.valid p hp with hend | hvalid
  · rw [(hsafe.checked p hp).nil hend]
    exact P.round_of_nil _ _
  · exact P.round_of_valid hvalid

theorem Follows.height (P : net.Places) {i q : Nat}
    (_ : (net.system P.par gd).honest i) (h : (net.system P.par gd).votes i r b q) :
    P.hgt b = P.hgt ((net.system P.par gd).par b) + 1 := by
  obtain ⟨ν, -, p, hp, -, rfl, -⟩ := h
  exact (hfol.place P hp).2

theorem Follows.lock (P : net.Dated) {c : Hash}
    (hp : (net.system P.par gd).Certified r (P.par c)) :
    ∀ i q, (net.system P.par gd).honest i → (net.system P.par gd).votes i (r + 1) c q → q = r :=
  (hfol.rules P.toPlaces).lock_of_round (hfol.height P.toPlaces) (hfol.round_of_certified P) hp

end

/-- In every run whose certificates name nobody twice: one block is certified per round, every
block certified from a proof's child on descends from the proven block, and two proven blocks lie
on one chain. -/
theorem finality_agreement [DecidableEq ι] (P : net.Dated) (hrun : net.Run cleanInputs w) :
    (∀ qc qc', net.Certifies w qc → net.Certifies w qc' → qc.round = qc'.round → qc.block = qc'.block) ∧
    (∀ pf x qc, net.Proves w pf x → net.Certifies w qc → pf.childQc.round ≤ qc.round →
      Descends P.par qc.block x) ∧
    (∀ pf pf' x y, net.Proves w pf x → net.Proves w pf' y →
      Descends P.par x y ∨ Descends P.par y x) := by
  obtain ⟨gd, hfol⟩ := Run.follows trivial fits_cleanInputs hrun
  have R := hfol.rules P.toPlaces
  have hcert : ∀ {qc}, net.Certifies w qc → (net.system P.par gd).Certified qc.round qc.block :=
    fun h => hfol.certified h.voted
  refine ⟨fun qc qc' h h' heq => ?_, fun pf x qc h h' hle => ?_, fun pf pf' x y h h' => ?_⟩
  · exact R.certified_unique (hcert h) (heq ▸ hcert h')
  · obtain ⟨hc, hp, hx⟩ := hfol.twoChain P.toPlaces h
    rw [h.certified.2.2] at hle
    exact hx.trans (R.reaches hc hp (hfol.lock P hp) hle (hcert h')).descends
  · obtain ⟨hc, hp, hx⟩ := hfol.twoChain P.toPlaces h
    obtain ⟨hc', hp', hy⟩ := hfol.twoChain P.toPlaces h'
    exact R.comparable hc hp (hfol.lock P hp) hc' hp' (hfol.lock P hp') hx hy

end Net

namespace Net

instance (e : Engine S) (ev : Event S) : Decidable (cleanInputs e ev) :=
  inferInstanceAs (Decidable (∀ qc ∈ ev.qcs, qc.Clean))

theorem Proves.of_mock {net : Net MockScheme ι} {w : ι → Node MockScheme} {pf : CommitProof MockScheme}
    {x : Hash} (nodes : List ι) (hall : ∀ μ, μ ∈ nodes) (hU : net.U = MockScheme.unforgeable _)
    (h : pf.qc.epoch = net.base.epoch ∧ (pf.qc.Clean ∧ pf.childQc.Clean) ∧
      (net.isMade nodes (nodes.flatMap fun μ => (w μ).durable) pf.qc = true ∧
        net.isMade nodes (nodes.flatMap fun μ => (w μ).durable) pf.childQc = true) ∧
      pf.verify net.H net.base.validators net.base.chainId net.base.anchor.hash = some x) :
    net.Proves w pf x := by
  obtain ⟨hepoch, hclean, ⟨hqc, hchild⟩, hacc⟩ := h
  have hl : ∀ s ∈ (nodes.flatMap fun μ => (w μ).durable), s ∈ durable w := by
    intro s hs
    obtain ⟨μ, -, hμ⟩ := List.mem_flatMap.1 hs
    exact ⟨μ, hμ⟩
  exact ⟨hepoch, hclean, ⟨ofQc_of_isMade nodes hall hU hl hqc, ofQc_of_isMade nodes hall hU hl hchild⟩, hacc⟩

end Net

def Ledger.places (L : Ledger) (net : Net MockScheme ι) (hH : net.H = L.hasher)
    (hv : ∀ {b}, net.valid b → ∃ x ∈ L.blocks, x.hash = b.hash ∧ x.parent = b.parent) : net.Places where
  par := L.par
  hgt := L.hgt
  of_valid h := by
    obtain ⟨x, hx, hhash, hparent⟩ := hv h
    rw [← hhash, ← hparent]
    exact ⟨par_of_mem hx, hgt_parent_of_mem hx⟩
  of_nil p r := by
    rw [hH]
    exact ⟨par_nil _ p r, hgt_nil _ p r⟩
  of_header h := by
    rw [hH] at h ⊢
    exact par_header h

def Ledger.dated (L : Ledger) (net : Net MockScheme ι) (hH : net.H = L.hasher)
    (hv : ∀ {b}, net.valid b → b ∈ L.blocks) : net.Dated where
  toPlaces := L.places net hH fun h => ⟨_, hv h, rfl, rfl⟩
  rnd := L.rnd
  round_of_valid h := rnd_of_mem (hv h)
  round_of_nil p r := by
    rw [hH]
    exact rnd_nil _ p r

namespace Duo

/-- Two members of weights 1 and 3. The second is honest and leads all rounds but every fourth. -/
def base : Config := ⟨7, 0, ⟨[1, 3], [1, 1, 1, 0]⟩, [], ⟨100, 99, 0, 0⟩, 50, 1000⟩

def ledger : Ledger where
  blocks := [⟨1, 100, 1, 1⟩, ⟨2, 1, 2, 2⟩, ⟨6, 2, 3, 3⟩, ⟨3, 100, 2, 1⟩, ⟨4, 3, 3, 2⟩, ⟨5, 4, 4, 3⟩]
  fresh := by decide
  height := by decide

def net : Net MockScheme Unit where
  H := ledger.hasher
  base := base
  me _ := [1]
  U := MockScheme.unforgeable _
  valid b := b ∈ ledger.blocks
  imports := False
  byzantine := {0}
  weight_lt := by decide
  disjoint _ _ := rfl
  honest_or := by decide
  byzantine_lt := by decide

instance : DecidablePred net.valid := fun b => inferInstanceAs (Decidable (b ∈ ledger.blocks))

instance : Decidable net.imports := inferInstanceAs (Decidable False)

theorem mem_nodes (μ : Unit) : μ ∈ [()] := List.mem_singleton.2 rfl

def dated : net.Dated := ledger.dated net rfl fun h => h

def qc (round : Nat) (block : Hash) (height : Nat) : Qc MockScheme :=
  ⟨0, round, block, height, [2], some [(1, .vote 7 0 round block)]⟩

def proof (round : Nat) (block child : Hash) (height : Nat) : CommitProof MockScheme :=
  ⟨qc round block height, qc (round + 1) child (height + 1), [UInt8.ofNat child], [], block, height⟩

def proposal (block : BlockInfo) (qc : Qc MockScheme) : Proposal MockScheme :=
  ⟨0, block, qc, none, 0, [], (0, .proposal 7 0 3 block.hash 0)⟩

def chain : List (Unit × Event MockScheme) :=
  [((), .start), ((), .proposed ⟨1, 100, 1, 1⟩ (Engine.anchorQc base) none []),
    ((), .proposed ⟨2, 1, 2, 2⟩ (qc 1 1 1) none [])]

def chainWorld : Unit → Node MockScheme := net.replay 20 net.initial chain

theorem chainWorld_run : net.Run (fun _ _ => True) chainWorld :=
  Net.Run.replay [()] mem_nodes rfl .refl (by decide +kernel)

def forgedQc : Qc MockScheme :=
  ⟨0, 2, 3, 1, Bitmap.page 8191 ++ (Bitmap.page 8191 ++ Bitmap.page 0),
    some (List.replicate 3 (0, .vote 7 0 2 3))⟩

theorem decode_forgedQc : Bitmap.decode forgedQc.signers = [0, 0, 0] := by
  have hlen : (Bitmap.page 8191).length % 8192 = 0 := by rw [Bitmap.page_length]
  rw [forgedQc, Bitmap.decode_append hlen, Bitmap.decode_append hlen, Bitmap.decode_page,
    Bitmap.decode_page]
  rfl

theorem forgedQc_accepted : forgedQc.verify base.validators 7 0 100 = true := by
  rw [Qc.verify, decode_forgedQc]
  decide

def forged : Proposal MockScheme := proposal ⟨4, 3, 3, 2⟩ forgedQc

def forgedOutcome : Outcome MockScheme :=
  (Engine.processQc (Engine.enterRound net.H 20) forgedQc
    ((chainWorld ()).eng.insertBlock forged.block)).andThen fun e =>
      (Engine.processTcOpt (Engine.enterRound net.H 20) none e).andThen
        (Engine.considerVote (Engine.enterRound net.H 20) forged false)

theorem checkProposal_forged : (chainWorld ()).eng.checkProposal net.H forged = true := by
  have hqc : (chainWorld ()).eng.verifyQc forgedQc = true := by
    rw [Engine.verifyQc, show (chainWorld ()).eng.cfg = { base with me := [1] } by decide +kernel]
    exact forgedQc_accepted
  rw [Engine.checkProposal, show forged.qc = forgedQc from rfl, hqc]
  decide +kernel

theorem on_forged : (chainWorld ()).eng.on net.H 20 (.message (.proposal forged)) = forgedOutcome := by
  have hcfg : (chainWorld ()).eng.cfg = { base with me := [1] } := by decide +kernel
  have hmsg : ¬ ((Message.proposal forged).epoch ≠ (chainWorld ()).eng.cfg.epoch ∨
      (chainWorld ()).eng.finished = true) := by decide +kernel
  have hnil : (chainWorld ()).eng.isNilHeight forged.block.height = false := by
    rw [Engine.isNilHeight, hcfg]
    decide
  simp only [Engine.on, Engine.onMessage, if_neg hmsg, Engine.onProposal, checkProposal_forged, hnil]
  rfl

def forgedWorld : Unit → Node MockScheme :=
  match forgedOutcome with
  | none => chainWorld
  | some (e, l) => Function.update chainWorld () ((chainWorld ()).after true e l)

theorem forgedWorld_run : net.Run (fun _ _ => True) forgedWorld := by
  have hsome : forgedOutcome.isSome = true := by decide +kernel
  obtain ⟨⟨e, l⟩, hout⟩ := Option.isSome_iff_exists.1 hsome
  have heq : forgedWorld = Function.update chainWorld () ((chainWorld ()).after true e l) := by
    rw [forgedWorld, hout]
  have hdel : net.Delivers chainWorld () (.message (.proposal forged)) :=
    Net.delivers_sound [()] mem_nodes rfl (by decide +kernel)
  rw [heq]
  exact chainWorld_run.tail
    (.handle () 20 (.message (.proposal forged)) true hdel trivial trivial (on_forged.trans hout) (by simp))

def branch : List (Unit × Event MockScheme) :=
  [((), .validated 4 true), ((), .proposed ⟨5, 4, 4, 3⟩ (qc 3 4 2) none [])]

def branchWorld : Unit → Node MockScheme := net.replay 20 forgedWorld branch

theorem branchWorld_run : net.Run (fun _ _ => True) branchWorld :=
  Net.Run.replay [()] mem_nodes rfl forgedWorld_run (by decide +kernel)

end Duo

/-- Without the restriction a member of a quarter of the weight makes two blocks final that are
not on one chain. -/
theorem finality_forks :
    Duo.net.Run (fun _ _ => True) Duo.branchWorld ∧
      Duo.net.Proves Duo.branchWorld (Duo.proof 1 1 2 1) 1 ∧
      Duo.net.Proves Duo.branchWorld (Duo.proof 3 4 5 2) 4 ∧
      ¬ Descends Duo.dated.par 1 4 ∧ ¬ Descends Duo.dated.par 4 1 := by
  refine ⟨Duo.branchWorld_run, .of_mock [()] Duo.mem_nodes rfl (by decide +kernel),
    .of_mock [()] Duo.mem_nodes rfl (by decide +kernel), fun h => ?_, fun h => ?_⟩
  · have hmem := h.mem_of_closed (A := [1, 100, 0]) (by decide) (by decide)
    revert hmem
    decide
  · have hmem := h.mem_of_closed (A := [4, 3, 100, 0]) (by decide) (by decide)
    revert hmem
    decide

def Duo.straight : List (Unit × Event MockScheme) :=
  Duo.chain ++ [((), .message (.proposal (Duo.proposal ⟨6, 2, 3, 3⟩ (Duo.qc 2 2 2)))),
    ((), .validated 6 true)]

theorem finality_on_chain :
    Duo.net.Proves (Duo.net.replay 20 Duo.net.initial Duo.straight) (Duo.proof 1 1 2 1) 1 ∧
      Duo.net.Proves (Duo.net.replay 20 Duo.net.initial Duo.straight) (Duo.proof 2 2 6 2) 2 ∧
      (Descends Duo.dated.par 1 2 ∨ Descends Duo.dated.par 2 1) := by
  have hrun : Duo.net.Run Net.cleanInputs (Duo.net.replay 20 Duo.net.initial Duo.straight) :=
    Net.Run.replay [()] Duo.mem_nodes rfl .refl (by decide +kernel)
  have h : Duo.net.Proves (Duo.net.replay 20 Duo.net.initial Duo.straight) (Duo.proof 1 1 2 1) 1 :=
    .of_mock [()] Duo.mem_nodes rfl (by decide +kernel)
  have h' : Duo.net.Proves (Duo.net.replay 20 Duo.net.initial Duo.straight) (Duo.proof 2 2 6 2) 2 :=
    .of_mock [()] Duo.mem_nodes rfl (by decide +kernel)
  exact ⟨h, h', (Net.finality_agreement Duo.dated hrun).2.2 _ _ _ _ h h'⟩

end Boltchain.Consensus
