import Boltchain.Consensus.Finality

namespace Boltchain.Consensus

open Lib.TwoChain

variable {S : Scheme} {ι : Type}

namespace Net

/-- Proof-of-stake blocks in full: the hash commits to parent, round and height, a nil block's hash
is never a real block's, and the anchor stands where the configuration says. -/
structure Exact (net : Net S ι) extends net.Dated where
  real : Hash → Bool
  height_of_valid : ∀ {b}, net.valid b → hgt b.hash = b.height
  real_of_valid : ∀ {b}, net.valid b → real b.hash = true
  real_of_nil : ∀ p r, real (net.H.nilHash net.base.epoch p r) = false
  par_anchor : par net.base.anchor.hash = net.base.anchor.parent
  hgt_anchor : hgt net.base.anchor.hash = net.base.anchor.height
  hgt_anchor_parent : hgt net.base.anchor.parent ≤ net.base.anchor.height
  real_anchor : real net.base.anchor.hash = true
  real_anchor_parent : real net.base.anchor.parent = true

namespace Exact

variable {net : Net S ι} (P : net.Exact)

def info (h : Hash) : BlockInfo := ⟨h, P.par h, P.rnd h, P.hgt h⟩

def shown (h : Hash) : Bool := P.real h && decide (P.hgt h ≤ net.base.endHeight)

/-- The blocks a commit hands over among the last `n` up to `tip`. -/
def chain (n : Nat) (tip : Hash) : List BlockInfo := ((path P.par n tip).filter P.shown).map P.info

/-- Where an engine stands: the committed block is the anchor or certified together with a child
of the next round, and what was committed are the real blocks on the way up to it. -/
structure Settled (K : Knowledge) (c : BlockInfo) (emitted : List BlockInfo) : Prop where
  final : c.hash = net.base.anchor.hash ∨ ∃ r b,
    Voted net.base (fun i => ∃ ν, i ∈ net.me ν) K r b ∧ P.par b = c.hash ∧ P.rnd b = P.rnd c.hash + 1
  way : ∃ n, P.hgt c.hash = net.base.anchor.height + n ∧ P.par^[n] c.hash = net.base.anchor.hash ∧
    (∀ k ≤ n, P.hgt (P.par^[k] c.hash) + k = P.hgt c.hash) ∧ emitted = P.chain n c.hash

/-- A block of the tree above the anchor is in its place. -/
structure Placed (x : BlockInfo) : Prop where
  par : P.par x.hash = x.parent
  rnd : P.rnd x.hash = x.round
  hgt : P.hgt x.hash = P.hgt x.parent + 1
  shown : P.shown x.hash = decide (x.height ≤ net.base.endHeight)
  info : x.height ≤ net.base.endHeight → P.info x.hash = x

variable {P} {ν : ι} {K : Knowledge}

variable {x : BlockInfo}

theorem Placed.of_valid (h : net.valid x) : P.Placed x where
  par := (P.of_valid h).1
  rnd := P.round_of_valid h
  hgt := (P.of_valid h).2
  shown := by rw [Exact.shown, P.real_of_valid h, P.height_of_valid h, Bool.true_and]
  info _ := by rw [Exact.info, (P.of_valid h).1, P.round_of_valid h, P.height_of_valid h]

theorem Placed.of_nil (hend : net.base.endHeight < x.height)
    (h : x.hash = net.H.nilHash net.base.epoch x.parent x.round) : P.Placed x where
  par := by rw [h, (P.of_nil _ _).1]
  rnd := by rw [h, P.round_of_nil]
  hgt := by rw [h, (P.of_nil _ _).2]
  shown := by rw [Exact.shown, h, P.real_of_nil, Bool.false_and, decide_eq_false (not_le.2 hend)]
  info hle := absurd hle (not_le.2 hend)

section

variable {T : net.Terms} (hT : ∀ {b}, T.stored b → net.valid b)

include hT

variable {x : BlockInfo}

theorem Placed.of_known (h : (net.ctx T ν).Known x)
    (hx : net.base.anchor.height < x.height) : P.Placed x := by
  rcases h with rfl | hv | ⟨hend, hnil, -⟩
  · exact absurd hx (lt_irrefl _)
  · exact .of_valid (hT hv)
  · exact .of_nil hend hnil

theorem hash_ne_anchor_parent (P : net.Exact) (h : (net.ctx T ν).Known x)
    (hx : net.base.anchor.height < x.height) : x.hash ≠ net.base.anchor.parent := by
  intro heq
  rcases h with rfl | hv | ⟨-, hnil, -⟩
  · exact lt_irrefl _ hx
  · have hle := P.hgt_anchor_parent
    rw [← heq, P.height_of_valid (hT hv)] at hle
    omega
  · have hreal := P.real_anchor_parent
    rw [← heq, hnil] at hreal
    exact absurd (hreal.symm.trans (P.real_of_nil _ _)) (by decide)

theorem placed_child (P : net.Exact) {p b : BlockInfo} (hp : (net.ctx T ν).Known p)
    (hb : (net.ctx T ν).Known b) (habove : net.base.anchor.height < p.height) (hparent : b.parent = p.hash) :
    P.Placed p ∧ P.Placed b ∧ b.hash ≠ net.base.anchor.hash := by
  have hne := hash_ne_anchor_parent hT P hp habove
  refine ⟨.of_known hT hp habove, ?_⟩
  rcases hb with heq | hv | ⟨hend, hnil, -⟩
  · exact absurd (hparent.symm.trans (congrArg BlockInfo.parent heq)) hne
  · refine ⟨.of_valid (hT hv), fun heq => hne ?_⟩
    rw [← P.par_anchor, ← heq, (P.of_valid (hT hv)).1]
    exact hparent.symm
  · refine ⟨.of_nil hend hnil, fun heq => ?_⟩
    have hreal := P.real_anchor
    rw [← heq, hnil] at hreal
    exact absurd (hreal.symm.trans (P.real_of_nil _ _)) (by decide)

end

variable {chain : List BlockInfo}

theorem path_of_linked {a b : Hash} (hl : Linked a chain b)
    (hp : ∀ x ∈ chain, P.Placed x) :
    P.par^[chain.length] b = a ∧ path P.par chain.length b = chain.map (·.hash) ∧
      ∀ k ≤ chain.length, P.hgt (P.par^[k] b) + k = P.hgt b := by
  induction chain generalizing a with
  | nil =>
    obtain rfl : a = b := hl
    refine ⟨rfl, rfl, fun k hk => ?_⟩
    obtain rfl := Nat.le_zero.1 hk
    rfl
  | cons x l ih =>
    obtain ⟨rfl, hl⟩ := hl
    have hx := hp x List.mem_cons_self
    obtain ⟨hiter, hpath, hhgt⟩ := ih hl fun y hy => hp y (List.mem_cons_of_mem _ hy)
    have hnext : P.par^[l.length + 1] b = x.parent := by
      rw [Function.iterate_succ_apply', hiter, hx.par]
    refine ⟨hnext, ?_, fun k hk => ?_⟩
    · rw [List.length_cons, Nat.add_comm, path_add, hiter, hpath]
      rfl
    · rcases Nat.le_succ_iff.1 hk with hk | rfl
      · exact hhgt k hk
      · have htop := hhgt l.length le_rfl
        rw [hiter, hx.hgt] at htop
        rw [hnext]
        omega

theorem filter_placed (hp : ∀ x ∈ chain, P.Placed x) :
    chain.filter (fun x => x.height ≤ net.base.endHeight) =
      ((chain.map (·.hash)).filter P.shown).map P.info := by
  induction chain with
  | nil => rfl
  | cons x l ih =>
    have hx := hp x List.mem_cons_self
    have ih := ih fun y hy => hp y (List.mem_cons_of_mem _ hy)
    by_cases hle : x.height ≤ net.base.endHeight
    · simp [hx.shown, hle, hx.info hle, ih]
    · simp [hx.shown, hle, ih]

variable {e : Engine S} {qc : Qc S}

theorem final_of_commit (P : net.Exact) {p b : BlockInfo} (hm : Mem (net.ctx (.plain net.valid) ν) K e)
    (h : CommitOk (net.ctx (.plain net.valid) ν) K e p b qc chain) :
    ∃ r b, Voted net.base (fun i => ∃ ν, i ∈ net.me ν) K r b ∧ P.par b = p.hash ∧
      P.rnd b = P.rnd p.hash + 1 := by
  obtain ⟨hbhash, hbknown, -⟩ := hm.blocks _ h.child
  obtain ⟨hphash, hpknown, -⟩ := hm.blocks _ h.parent
  obtain ⟨hp, hb⟩ := placed_child id P hpknown hbknown (hm.anchor_lt h.above) hphash
  refine ⟨qc.round, b.hash, ?_, hb.1.par.trans hphash, ?_⟩
  · rcases h.qc.backed trivial with ⟨-, hanchor⟩ | hvoted
    · exact absurd (hbhash.symm.trans hanchor) hb.2
    · rw [← show qc.block = b.hash from hbhash]
      exact hvoted
  · rw [hb.1.rnd, hp.rnd, h.rounds]

theorem Settled.commit {p b : BlockInfo} {emitted : List BlockInfo}
    (hm : Mem (net.ctx (.plain net.valid) ν) K e) (hs : P.Settled K e.committed emitted)
    (h : CommitOk (net.ctx (.plain net.valid) ν) K e p b qc chain) :
    P.Settled K p (emitted ++ chain.filter fun x => x.height ≤ net.base.endHeight) := by
  have hplaced : ∀ x ∈ chain, P.Placed x := fun x hx =>
    .of_known id (hm.blocks _ (h.chain x hx).1).2.1 (hm.anchor_lt (h.chain x hx).2)
  obtain ⟨hiter, hpath, hhgt⟩ := path_of_linked h.linked hplaced
  obtain ⟨n, hn, hanchor, hway, hem⟩ := hs.way
  have htop := hhgt chain.length le_rfl
  rw [hiter] at htop
  refine ⟨.inr (final_of_commit P hm h), n + chain.length, by omega, ?_, fun k hk => ?_, ?_⟩
  · rw [Function.iterate_add_apply, hiter, hanchor]
  · rcases le_total k chain.length with hle | hle
    · exact hhgt k hle
    · obtain ⟨j, rfl⟩ := Nat.exists_eq_add_of_le' hle
      rw [Function.iterate_add_apply, hiter]
      have hj := hway j (by omega)
      omega
  · rw [Exact.chain, path_add, hiter, hpath, List.filter_append, List.map_append,
      ← filter_placed hplaced, hem]
    rfl

variable {em : List BlockInfo}

theorem Settled.isPrefix {c c' : BlockInfo} {em' : List BlockInfo} {k : Nat} (hs : P.Settled K c em)
    (hs' : P.Settled K c' em') (hk : P.hgt c'.hash = P.hgt c.hash + k)
    (hiter : P.par^[k] c'.hash = c.hash) : em <+: em' := by
  obtain ⟨n, hn, -, -, rfl⟩ := hs.way
  obtain ⟨n', hn', -, -, rfl⟩ := hs'.way
  obtain rfl : n' = n + k := by omega
  rw [chain, chain, path_add, hiter, List.filter_append, List.map_append]
  exact List.prefix_append _ _

theorem Settled.eq_of_height {c y : BlockInfo} (hs : P.Settled K c em)
    (hx : x ∈ em) (hy : y ∈ em) (heq : x.height = y.height) : x = y := by
  obtain ⟨n, -, -, hway, rfl⟩ := hs.way
  have hmem : ∀ {z}, z ∈ P.chain n c.hash → ∃ k ≤ n, z = P.info (P.par^[k] c.hash) := by
    intro z hz
    obtain ⟨h, hh, rfl⟩ := List.mem_map.1 hz
    obtain ⟨k, hk, rfl⟩ := mem_path (List.mem_filter.1 hh).1
    exact ⟨k, hk.le, rfl⟩
  obtain ⟨i, hi, rfl⟩ := hmem hx
  obtain ⟨j, hj, rfl⟩ := hmem hy
  have hwi := hway i hi
  have hwj := hway j hj
  have heq : P.hgt (P.par^[i] c.hash) = P.hgt (P.par^[j] c.hash) := heq
  obtain rfl : i = j := by omega
  rfl

theorem extra (P : net.Exact) (himp : ¬ net.imports) :
    net.Extra (.plain net.valid) fun _ K c g => P.Settled K c g.emitted where
  init ν K := by
    refine ⟨.inl rfl, 0, P.hgt_anchor, rfl, fun k hk => ?_, rfl⟩
    obtain rfl := Nat.le_zero.1 hk
    rfl
  mono hK h := by
    refine ⟨h.final.imp id ?_, h.way⟩
    rintro ⟨r, b, hv, hb⟩
    exact ⟨r, b, hv.mono _ _ fun _ hi => hK hi, hb⟩
  micro := by
    intro ν K s s' hm hs hstep
    cases hstep with
    | commit f h hf => exact hs.commit hm h
    | external hx => exact absurd hx himp
    | insertBlock =>
      simp only [Engine.insertBlock]
      split <;> exact hs
    | _ => exact hs

end Exact

def received : Event S → Option (Proposal S)
  | .message (.proposal p) => some p
  | _ => none

/-- Inputs whose certificates name nobody twice, and whose proposals come under the place their
hash commits to when `on_proposal` adds them to the block tree. -/
def trueInputs (net : Net S ι) (e : Engine S) (ev : Event S) : Prop :=
  cleanInputs e ev ∧ ∀ p ∈ received ev, e.Stores net.H p → net.valid p.block

theorem fits_trueInputs {net : Net S ι} (himp : ¬ net.imports) :
    Fits net (.plain net.valid) net.trueInputs where
  clean _ _ _ h := h.1
  stores h := h.2 _ rfl
  valid h := h
  imports _ h := absurd h himp
  levels _ _ _ _ := trivial
  votes _ := trivial
  reports _ h := h.elim

variable {net : Net S ι} {w : ι → Node S}

variable {P : net.Exact} {c : BlockInfo} {em : List BlockInfo} {gd : ι → Ghost S}

theorem Follows.twoChain_of_settled (hfol : net.Follows (.plain net.valid) w gd) (hs : P.Settled (durable w) c em) :
    c.hash = net.base.anchor.hash ∨ ∃ r b, (net.system P.par gd).Certified (r + 1) b ∧
      (net.system P.par gd).Certified r (P.par b) ∧ P.par b = c.hash := by
  rcases hs.final with h | ⟨r, b, hv, hpar, hrnd⟩
  · exact .inl h
  · have R := hfol.rules P.toPlaces
    have hcert : (net.system P.par gd).Certified r b := hfol.certified hv
    obtain ⟨i, q, hh, hq⟩ := R.exists_vote hcert
    rcases R.justified hh hq with ⟨-, hanchor⟩ | hp
    · exact .inl (hpar.symm.trans hanchor)
    · have hr := hfol.round_of_certified P.toDated hcert
      have hqr : P.rnd (P.par b) = q := hfol.round_of_certified P.toDated hp
      rw [hpar] at hqr
      obtain rfl : r = q + 1 := by omega
      exact .inr ⟨q, b, hcert, hp, hpar⟩

theorem Exact.Settled.eq_nil {K : Knowledge}
    (hs : P.Settled K c em) (hc : c.hash = net.base.anchor.hash) : em = [] := by
  obtain ⟨n, hn, -, -, rfl⟩ := hs.way
  rw [hc, P.hgt_anchor] at hn
  obtain rfl : n = 0 := by omega
  rfl

theorem Follows.isPrefix_or {c' : BlockInfo}
    {em' : List BlockInfo} (hfol : net.Follows (.plain net.valid) w gd)
    (hs : P.Settled (durable w) c em) (hs' : P.Settled (durable w) c' em') :
    em <+: em' ∨ em' <+: em := by
  have R := hfol.rules P.toPlaces
  rcases hfol.twoChain_of_settled hs with h | ⟨r, b, hc, hp, hpar⟩
  · exact .inl (hs.eq_nil h ▸ List.nil_prefix)
  rcases hfol.twoChain_of_settled hs' with h | ⟨r', b', hc', hp', hpar'⟩
  · exact .inr (hs'.eq_nil h ▸ List.nil_prefix)
  have hreach := R.reaches_or hc hp (hfol.lock P.toDated hp) hc' hp' (hfol.lock P.toDated hp')
  rw [show (net.system P.par gd).par b = c.hash from hpar,
    show (net.system P.par gd).par b' = c'.hash from hpar'] at hreach
  rcases hreach with h | h
  · obtain ⟨k, hk, hiter⟩ := R.height_reaches (hfol.height P.toPlaces) h
    exact .inl (hs.isPrefix hs' hk hiter)
  · obtain ⟨k, hk, hiter⟩ := R.height_reaches (hfol.height P.toPlaces) h
    exact .inr (hs'.isPrefix hs hk hiter)

variable [DecidableEq ι]

theorem Run.settled (P : net.Exact) (himp : ¬ net.imports) (hrun : net.Run net.trueInputs w) :
    ∃ gd, net.Follows (.plain net.valid) w gd ∧ ∀ ν, ∃ c, P.Settled (durable w) c (w ν).emitted := by
  have hX := P.extra himp
  choose g gd hok using Run.nodeOk hX (fits_trueInputs himp) hrun
  refine ⟨gd, fun ν => ⟨(hok ν).written, trivial, (hok ν).safe_disk⟩, fun ν => ?_⟩
  have hdisk := (hok ν).disk
  rw [← (hok ν).kept]
  cases hd : (w ν).disk with
  | none =>
    rw [hd] at hdisk
    rw [show gd ν = Ghost.init from hdisk]
    exact ⟨net.base.anchor, hX.init ν _⟩
  | some p =>
    rw [hd] at hdisk
    exact ⟨p.committed, hdisk.2.2.2⟩

/-- In every run whose certificates name nobody twice and whose proposals enter the block tree
under their true places, what two nodes committed are prefixes of one chain on the anchor, with
one block per height. -/
theorem engines_agree (P : net.Exact) (himp : ¬ net.imports) (hrun : net.Run net.trueInputs w) (ν μ : ι) :
    (∃ n tip, P.par^[n] tip = net.base.anchor.hash ∧ (w ν).emitted <+: P.chain n tip ∧
      (w μ).emitted <+: P.chain n tip) ∧
    ((w ν).emitted <+: (w μ).emitted ∨ (w μ).emitted <+: (w ν).emitted) ∧
    ∀ x ∈ (w ν).emitted, ∀ y ∈ (w μ).emitted, x.height = y.height → x.hash = y.hash := by
  obtain ⟨gd, hfol, hsettled⟩ := Run.settled P himp hrun
  obtain ⟨c, hs⟩ := hsettled ν
  obtain ⟨c', hs'⟩ := hsettled μ
  obtain ⟨n, -, hanchor, -, hchain⟩ := hs.way
  obtain ⟨n', -, hanchor', -, hchain'⟩ := hs'.way
  have hcomp := hfol.isPrefix_or hs hs'
  refine ⟨?_, hcomp, fun x hx y hy heq => ?_⟩
  · rcases hcomp with h | h
    · exact ⟨n', c'.hash, hanchor', hchain' ▸ h, hchain' ▸ List.prefix_rfl⟩
    · exact ⟨n, c.hash, hanchor, hchain ▸ List.prefix_rfl, hchain ▸ h⟩
  · rcases hcomp with h | h
    · rw [hs'.eq_of_height (h.subset hx) hy heq]
    · rw [hs.eq_of_height hx (h.subset hy) heq]

end Net

/-- A committee whose blocks are listed in `L`, on an anchor that is not among them. -/
def Ledger.exact (L : Ledger) (net : Net MockScheme ι) (hH : net.H = L.hasher)
    (hv : ∀ {b}, net.valid b → b ∈ L.blocks) (ha : net.base.anchor = ⟨100, 0, 0, 0⟩)
    (h100 : L.find 100 = none) (h0 : L.find 0 = none) : net.Exact where
  toDated := L.dated net hH hv
  real h := decide (h < 256)
  height_of_valid := @hgt_of_valid _ L net @hv
  real_of_valid h := decide_eq_true (L.fresh _ (hv h)).1
  real_of_nil p r := by
    rw [hH]
    exact decide_eq_false (by simp [hasher])
  par_anchor := by
    rw [ha]
    simp [dated, places, par, h100]
  hgt_anchor := by
    rw [ha]
    simp [dated, places, hgt, h100]
  hgt_anchor_parent := by
    rw [ha]
    simp [dated, places, hgt, h0]
  real_anchor := by rw [ha]; rfl
  real_anchor_parent := by rw [ha]; rfl

namespace Trio

/-- Three members of weights 5, 1 and 1. The last one is not honest and leads round 2. -/
def base : Config := ⟨7, 0, ⟨[5, 1, 1], [0, 0, 2, 0, 0, 0, 1]⟩, [], ⟨100, 0, 0, 0⟩, 50, 1000⟩

def ledger : Ledger where
  blocks := [⟨1, 100, 1, 1⟩, ⟨2, 100, 2, 1⟩, ⟨3, 2, 3, 2⟩, ⟨4, 3, 4, 3⟩]
  fresh := by decide
  height := by decide

def net : Net MockScheme Bool where
  H := ledger.hasher
  base := base
  me ν := if ν then [1] else [0]
  U := MockScheme.unforgeable _
  valid b := b ∈ ledger.blocks
  imports := False
  byzantine := {2}
  weight_lt := by decide
  disjoint := @Net.disjoint_pair
  honest_or := by decide
  byzantine_lt := by decide

instance : DecidablePred net.valid := fun b => inferInstanceAs (Decidable (b ∈ ledger.blocks))

instance : Decidable net.imports := inferInstanceAs (Decidable False)

theorem mem_nodes (μ : Bool) : μ ∈ [false, true] := by cases μ <;> decide

def exact : net.Exact := ledger.exact net rfl (fun h => h) rfl rfl rfl

def qc (round : Nat) (block : Hash) (height : Nat) : Qc MockScheme :=
  ⟨0, round, block, height, [1], some [(0, .vote 7 0 round block)]⟩

def tc : Tc MockScheme := ⟨0, 1, Engine.anchorQc base, [(0, 0, (0, .timeout 7 0 1 0))]⟩

def proposal (i : Nat) (block : BlockInfo) (qc : Qc MockScheme) (tc : Option (Tc MockScheme)) :
    Message MockScheme :=
  .proposal ⟨0, block, qc, tc, i, [], (i, .proposal 7 0 block.round block.hash 0)⟩

/-- Block 2 stands on the anchor, but its leader first shows member 0 the same hash on top of
block 1; member 1 only sees the true place. -/
def split : List (Bool × Event MockScheme) :=
  [(false, .start), (false, .proposed ⟨1, 100, 1, 1⟩ (Engine.anchorQc base) none []), (false, .timeout 1),
    (false, .message (proposal 2 ⟨2, 1, 2, 2⟩ (qc 1 1 1) none)), (false, .validated 2 false),
    (false, .message (proposal 2 ⟨2, 100, 2, 1⟩ (Engine.anchorQc base) (some tc))),
    (false, .validated 2 true), (false, .proposed ⟨3, 2, 3, 2⟩ (qc 2 2 1) none []),
    (false, .proposed ⟨4, 3, 4, 3⟩ (qc 3 3 2) none []),
    (true, .start), (true, .message (proposal 2 ⟨2, 100, 2, 1⟩ (Engine.anchorQc base) (some tc))),
    (true, .message (proposal 0 ⟨3, 2, 3, 2⟩ (qc 2 2 1) none)),
    (true, .message (proposal 0 ⟨4, 3, 4, 3⟩ (qc 3 3 2) none))]

def splitWorld : Bool → Node MockScheme := net.replay 20 net.initial split

end Trio

/-- A block shown under a false place makes two honest nodes commit different blocks of one
height. -/
theorem engines_disagree :
    Nonempty Trio.net.Exact ∧ Trio.net.Run Net.cleanInputs Trio.splitWorld ∧
      ⟨1, 100, 1, 1⟩ ∈ (Trio.splitWorld false).emitted ∧
      ⟨2, 100, 2, 1⟩ ∈ (Trio.splitWorld true).emitted :=
  ⟨⟨Trio.exact⟩, Net.Run.replay [false, true] Trio.mem_nodes rfl .refl (by decide +kernel),
    by decide +kernel, by decide +kernel⟩

instance (H : Hasher) (e : Engine S) (p : Proposal S) : Decidable (e.Stores H p) :=
  inferInstanceAs (Decidable (_ ∧ _))

instance {net : Net MockScheme ι} [DecidablePred net.valid] (e : Engine MockScheme)
    (ev : Event MockScheme) : Decidable (net.trueInputs e ev) := inferInstanceAs (Decidable (_ ∧ _))

def Trio.straight : List (Bool × Event MockScheme) :=
  [(false, .start), (false, .timeout 1),
    (false, .message (proposal 2 ⟨2, 100, 2, 1⟩ (Engine.anchorQc base) (some tc))),
    (false, .validated 2 true), (false, .proposed ⟨3, 2, 3, 2⟩ (qc 2 2 1) none []),
    (false, .proposed ⟨4, 3, 4, 3⟩ (qc 3 3 2) none []),
    (true, .start), (true, .message (proposal 2 ⟨2, 100, 2, 1⟩ (Engine.anchorQc base) (some tc))),
    (true, .message (proposal 0 ⟨3, 2, 3, 2⟩ (qc 2 2 1) none)),
    (true, .message (proposal 0 ⟨4, 3, 4, 3⟩ (qc 3 3 2) none))]

theorem engines_agree_on_chain :
    (Trio.net.replay 20 Trio.net.initial Trio.straight false).emitted = [⟨2, 100, 2, 1⟩, ⟨3, 2, 3, 2⟩] ∧
      ((Trio.net.replay 20 Trio.net.initial Trio.straight true).emitted <+:
          (Trio.net.replay 20 Trio.net.initial Trio.straight false).emitted ∨
        (Trio.net.replay 20 Trio.net.initial Trio.straight false).emitted <+:
          (Trio.net.replay 20 Trio.net.initial Trio.straight true).emitted) := by
  have hrun : Trio.net.Run Trio.net.trueInputs (Trio.net.replay 20 Trio.net.initial Trio.straight) :=
    Net.Run.replay [false, true] Trio.mem_nodes rfl .refl (by decide +kernel)
  exact ⟨by decide +kernel, (Net.engines_agree Trio.exact id hrun true false).2.1⟩

end Boltchain.Consensus
