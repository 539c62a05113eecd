import Boltchain.Chain.Reexecute
import Boltchain.Chain.MockWorld

namespace Boltchain.Chain

open Consensus (Bytes Hash)
open Lib.Action Lib.Journal Lib.Sift

variable {W : World}

theorem clampGas_mem (gas : Nat) : gasLimitRange.1 ≤ clampGas gas ∧ clampGas gas ≤ gasLimitRange.2 := by
  have hrange : gasLimitRange.1 ≤ gasLimitRange.2 := by decide
  unfold clampGas
  omega

theorem clampGas_eq {gas : Nat} (hlo : gasLimitRange.1 ≤ gas) (hhi : gas ≤ gasLimitRange.2) :
    clampGas gas = gas := by
  unfold clampGas
  omega

theorem nextGasLimit_valid {parentGasLimit : Nat} (target : Nat) (hlo : gasLimitRange.1 ≤ parentGasLimit)
    (hhi : parentGasLimit ≤ gasLimitRange.2) :
    validGasLimit parentGasLimit (nextGasLimit parentGasLimit target) = true := by
  unfold nextGasLimit
  obtain ⟨htlo, hthi⟩ := clampGas_mem (if target = 0 then parentGasLimit else target)
  generalize clampGas (if target = 0 then parentGasLimit else target) = t at htlo hthi
  have hdelta : 0 < parentGasLimit / 1024 := Nat.div_pos (le_trans (by decide) hlo) (by norm_num)
  -- the step stays between the parent's limit and the target
  have hstep : gasLimitRange.1 ≤ stepGas parentGasLimit t ∧ stepGas parentGasLimit t ≤ gasLimitRange.2 ∧
      stepGas parentGasLimit t - parentGasLimit + (parentGasLimit - stepGas parentGasLimit t) <
        parentGasLimit / 1024 := by
    unfold stepGas
    dsimp only
    split <;> omega
  rw [clampGas_eq hstep.1 hstep.2.1]
  unfold validGasLimit
  rw [Bool.and_eq_true, Bool.and_eq_true, decide_eq_true_eq, decide_eq_true_eq, decide_eq_true_eq]
  omega

theorem recoverSigner_kept {kept : List (W.Tx × Address)} (h : ∀ c ∈ kept, W.recoverSigner c.1 = some c.2) :
    (kept.map Prod.fst).mapM W.recoverSigner = some (kept.map Prod.snd) ∧
      (kept.map Prod.fst).zip (kept.map Prod.snd) = kept := by
  refine ⟨?_, (List.zip_of_prod rfl rfl).symm⟩
  induction kept with
  | nil => rfl
  | cons c kept ih =>
    have hrest := ih fun x hx => h x (List.mem_cons_of_mem _ hx)
    simp [h c List.mem_cons_self, hrest]

theorem recoverSigner_zip {txs : List W.Tx} {senders : List Address}
    (h : txs.mapM W.recoverSigner = some senders) : ∀ c ∈ txs.zip senders, W.recoverSigner c.1 = some c.2 := by
  induction txs generalizing senders with
  | nil => simp
  | cons tx txs ih =>
    simp only [List.mapM_cons, Option.bind_eq_bind, Option.bind_eq_some_iff, Option.pure_def,
      Option.some.injEq] at h
    obtain ⟨sender, hs, rest, hrest, rfl⟩ := h
    rw [List.zip_cons_cons, List.forall_mem_cons]
    exact ⟨hs, ih hrest⟩

namespace Node

variable {n m : Node W} {parent : Hash} {ancestors : List (PendingBlock W)}

variable {g : Header} {h : Hash}

theorem headerOf_hash (hg : n.headerOf h = some g) : W.hash g = h := by
  simp only [headerOf, Option.or_eq_some_iff, Option.map_eq_some_iff] at hg
  obtain ⟨p, hp, rfl⟩ | ⟨-, b, hb, rfl⟩ := hg
  · exact (mem_of_pendingBlock hp).2
  · exact (mem_of_block hb).2

theorem headerAny_hash (hg : n.headerAny h = some g) : W.hash g = h := by
  rcases Option.or_eq_some_iff.1 hg with hg | ⟨-, hg⟩
  · exact headerOf_hash hg
  · obtain ⟨b, hb, rfl⟩ := Option.map_eq_some_iff.1 hg
    exact (mem_of_sideBlock hb).2

variable {b : StoredBlock W}

theorem block_of_mem (hb : b ∈ n.canonical) : (n.block (W.hash b.header)).isSome := by
  simp only [block, List.find?_isSome]
  exact ⟨b, hb, beq_self_eq_true _⟩

theorem headerOf_isSome_of_mem (hb : b ∈ n.canonical) :
    (n.headerOf (W.hash b.header)).isSome := by
  simp [headerOf, block_of_mem hb]

theorem headerOf_head (n : Node W) : n.headerOf (W.hash n.head) = some n.head := by
  obtain ⟨g, hg⟩ := Option.isSome_iff_exists.1 (headerOf_isSome_of_mem (n := n) List.mem_cons_self)
  have hhead : g = n.head := W.hash_inj (headerOf_hash hg)
  exact hg.trans (congrArg some hhead)

variable {chain chain' : List (PendingBlock W)} {cur : Hash} {fuel : Nat}

theorem pendingChainFrom_suffix
    (h : n.pendingChainFrom fuel cur chain = .ok chain') : chain <:+ chain' := by
  fun_induction pendingChainFrom n fuel cur chain with
  | case1 => cases h; exact List.suffix_rfl
  | case2 => cases h
  | case3 cur chain hcur fuel p hp hgt ih => exact (List.suffix_cons _ _).trans (ih h)
  | case4 => cases h

theorem pendingChainFrom_ok
    (h : n.pendingChainFrom fuel cur chain = .ok chain') :
    (cur = W.hash n.head ∧ chain' = chain) ∨
      ∃ p fuel', n.pendingBlock cur = some p ∧ cur ≠ W.hash n.head ∧
        n.pendingChainFrom fuel' p.header.parentHash (p :: chain) = .ok chain' := by
  unfold pendingChainFrom at h
  split at h
  case isTrue hcur => cases h; exact .inl ⟨hcur, rfl⟩
  case isFalse hcur =>
    split at h
    · rename_i fuel' p hp
      split at h
      · cases h
      · exact .inr ⟨p, fuel', hp, hcur, h⟩
    · cases h

theorem pendingChain_ok (h : n.pendingChain parent = .ok ancestors) :
    (parent = W.hash n.head ∧ ancestors = []) ∨
      ∃ p, n.pendingBlock parent = some p ∧ ancestors.getLast? = some p ∧
        (n.headerOf p.header.parentHash).isSome := by
  obtain ⟨hhead, rfl⟩ | ⟨p, fuel, hp, -, hrest⟩ := pendingChainFrom_ok h
  · exact .inl ⟨hhead, rfl⟩
  · obtain ⟨front, rfl⟩ := pendingChainFrom_suffix hrest
    refine .inr ⟨p, hp, by simp, ?_⟩
    obtain ⟨hhead, -⟩ | ⟨q, _, hq, -, -⟩ := pendingChainFrom_ok hrest
    · rw [hhead, headerOf_head]
      rfl
    · simp [headerOf, hq]

/-- The canonical blocks follow one another down to block 0. -/
structure Rooted (n : Node W) : Prop where
  linked : n.canonical.IsChain fun b c => b.header.Follows W c.header
  root : ∀ b ∈ n.canonical.getLast?, b.header.number = 0

/-- The headers and envelopes of the canonical chain, newest first. -/
def envelopes (n : Node W) : List (Header × Cid) := n.canonical.map fun b => (b.header, b.root)

/-- `m` has the state of `n` and the ancestors of `parent` that `n` has, committed and pending. -/
structure SameAncestors (n m : Node W) (parent : Hash) : Prop where
  envelopes : m.envelopes = n.envelopes
  state : m.state = n.state
  pending : m.pendingChain parent = n.pendingChain parent

theorem blockAt_envelopes (h : m.envelopes = n.envelopes) (k : Nat) :
    (m.blockAt k).map (fun b => (b.header, b.root)) = (n.blockAt k).map fun b => (b.header, b.root) := by
  have hfind : ∀ n : Node W, (n.blockAt k).map (fun b => (b.header, b.root)) =
      n.envelopes.find? fun e => e.1.number == k := by
    intro n
    rw [Node.envelopes, List.find?_map]
    rfl
  rw [hfind, hfind, h]

theorem Rooted.of_envelopes (hn : n.Rooted) (h : m.envelopes = n.envelopes) : m.Rooted := by
  have hheaders : m.canonical.map StoredBlock.header = n.canonical.map StoredBlock.header := by
    have := congrArg (List.map Prod.fst) h
    simpa [Node.envelopes, Function.comp_def] using this
  refine ⟨?_, fun b hb => ?_⟩
  · have hlinked := (List.isChain_map StoredBlock.header (R := Header.Follows W)).2 hn.linked
    rw [← hheaders] at hlinked
    exact (List.isChain_map StoredBlock.header).1 hlinked
  · have hlast : (m.canonical.map StoredBlock.header).getLast? = some b.header := by
      rw [List.getLast?_map, Option.mem_def.1 hb]
      rfl
    rw [hheaders, List.getLast?_map] at hlast
    obtain ⟨c, hc, hheader⟩ := Option.map_eq_some_iff.1 hlast
    rw [← hheader]
    exact hn.root c hc

theorem Rooted.grandparent_isSome (h : n.Rooted) (hpending : n.pendingChain parent = .ok ancestors)
    (hnum : 1 < (n.viewOver ancestors).parent.number) :
    (n.headerAny (n.viewOver ancestors).parent.parentHash).isSome := by
  obtain ⟨-, rfl⟩ | ⟨p, -, hlast, hsome⟩ := pendingChain_ok hpending
  · cases hbelow : n.below with
    | nil =>
      have hzero := h.root n.tip (by simp [canonical, hbelow])
      have hhead : (n.viewOver []).parent = n.tip.header := rfl
      rw [hhead] at hnum
      omega
    | cons b below =>
      have hlink := h.linked
      rw [canonical, hbelow] at hlink
      have hparent : n.tip.header.parentHash = W.hash b.header := (List.isChain_cons_cons.1 hlink).1.1
      have hmem : b ∈ n.canonical := by simp [canonical, hbelow]
      have hhead : (n.viewOver []).parent = n.tip.header := rfl
      rw [hhead, hparent, headerAny, Option.isSome_or, headerOf_isSome_of_mem hmem]
      rfl
  · have hparent : (n.viewOver ancestors).parent = p.header := by simp [viewOver, hlast]
    rw [hparent, headerAny, Option.isSome_or, hsome]
    rfl

/-- Nodes with the same ancestors see the same. -/
theorem SameAncestors.view_eq (h : n.SameAncestors m parent) (hn : n.Rooted) : m.view parent = n.view parent := by
  have hm : m.Rooted := hn.of_envelopes h.envelopes
  have htip : (m.tip.header, m.tip.root) = (n.tip.header, n.tip.root) := (List.cons.inj h.envelopes).1
  have hhead : m.head = n.head := congrArg Prod.fst htip
  have hroot : m.tip.root = n.tip.root := congrArg Prod.snd htip
  have hhash : ∀ k, ((m.blockAt k).map fun b => W.hash b.header) = (n.blockAt k).map fun b => W.hash b.header := by
    intro k
    have := congrArg (Option.map fun e : Header × Cid => W.hash e.1) (blockAt_envelopes h.envelopes k)
    simpa [Function.comp_def] using this
  have hcid : ∀ k, ((m.blockAt k).map fun b => b.root) = (n.blockAt k).map fun b => b.root := by
    intro k
    have := congrArg (Option.map fun e : Header × Cid => e.2) (blockAt_envelopes h.envelopes k)
    simpa [Function.comp_def] using this
  unfold view
  rw [h.pending]
  cases hp : n.pendingChain parent with
  | error e => rfl
  | ok ancestors =>
    have hparent : (m.viewOver ancestors).parent = (n.viewOver ancestors).parent := by
      simp only [viewOver, hhead]
    have hgrand : (m.viewOver ancestors).grandparent = (n.viewOver ancestors).grandparent := by
      have hfield : ∀ n : Node W, (n.viewOver ancestors).grandparent =
          n.grandparent (n.viewOver ancestors).parent := fun _ => rfl
      rw [hfield, hfield, hparent]
      unfold grandparent
      split
      · rfl
      · rename_i hnum
        have hnum := Nat.lt_of_not_le hnum
        obtain ⟨g, hg⟩ := Option.isSome_iff_exists.1 (hn.grandparent_isSome hp hnum)
        obtain ⟨g', hg'⟩ := Option.isSome_iff_exists.1
          (hm.grandparent_isSome (h.pending.trans hp) (hparent ▸ hnum))
        rw [hparent] at hg'
        rw [hg, hg', W.hash_inj ((headerAny_hash hg').trans (headerAny_hash hg).symm)]
    have hview : m.viewOver ancestors = n.viewOver ancestors := by
      simp only [viewOver, hhead, hhash, hcid, h.state, hroot] at hgrand ⊢
      rw [hgrand]
    show Except.ok (m.viewOver ancestors) = Except.ok (n.viewOver ancestors)
    rw [hview]

theorem headerOf_parent {v : View W} (h : n.view parent = .ok v) : n.headerOf parent = some v.parent := by
  unfold view at h
  cases hp : n.pendingChain parent with
  | error e => rw [hp] at h; cases h
  | ok ancestors =>
    rw [hp] at h
    cases h
    obtain ⟨rfl, rfl⟩ | ⟨p, hpend, hlast, -⟩ := pendingChain_ok hp
    · exact n.headerOf_head
    · have hparent : (n.viewOver ancestors).parent = p.header := by simp [viewOver, hlast]
      rw [hparent, headerOf, hpend]
      rfl

end Node

/-- What makes a built header one that others accept: under PoS it is left as it is, a mined one is
sealed and carries at most 32 bytes of extra data. -/
def View.Seals (v : View W) (header : Header) : Prop :=
  ∀ kind, v.kindOf = .ok kind →
    match kind with
    | .pos => header.nonce = 0
    | .mined _ _ => header.extraData.length ≤ 32 ∧
        ∃ seed, v.seed (seedHeight header.number) = some seed ∧ W.verifySeal seed header = true

theorem View.checkKind_built {v : View W} {wish : View.Wish} {txs : List (W.Tx × Address)}
    {expected : Option Header} {certs : Certs} {r : View.Executed W} {nonce : Nat}
    (h : v.executeOn wish txs expected certs = .ok r) (hseals : v.Seals (r.block.sealed nonce).header) :
    ∀ kind, v.kindOf = .ok kind → v.checkKind (r.block.sealed nonce).header kind = .ok () := by
  intro kind hkind
  obtain ⟨kind', evm, audits, s, hk, -, -, -, -, rfl⟩ := View.executeOn_ok h
  obtain rfl : kind = kind' := Except.ok.inj (hkind.symm.trans hk)
  have hseal := hseals kind hkind
  cases kind with
  | pos =>
    have hnonce : nonce = 0 := hseal
    exact ensure_ok (by simp [PendingBlock.sealed, View.finish, Executor.header, View.paramsFor, hnonce])
  | mined difficulty checkpointing =>
    obtain ⟨hextra, seed, hseed, hvalid⟩ := hseal
    simp only [View.checkKind, View.checkSeal, bind_eq_ok, ensure_eq_ok, orThrow_eq_ok, decide_eq_true_eq]
    exact ⟨(), beq_self_eq_true _, (), hextra, seed, hseed, hvalid⟩

section Agreement

variable {n m : Node W} {parent : Hash} {v : View W} {r : View.Executed W} {nonce : Nat}

theorem verifyBlock_again {wish : View.Wish} {txs : List (W.Tx × Address)} {expected : Option Header}
    {certs : Certs} (h : v.executeOn wish txs expected certs = .ok r)
    (hsigners : ∀ c ∈ txs, W.recoverSigner c.1 = some c.2) (hview : m.view (W.hash v.parent) = .ok v)
    (htime : v.parent.timestamp < r.block.header.timestamp)
    (hgas : validGasLimit v.parent.gasLimit r.block.header.gasLimit = true)
    (hkind : ∀ kind, v.kindOf = .ok kind → v.checkKind (r.block.sealed nonce).header kind = .ok ())
    (hfresh : m.pendingBlock (W.hash (r.block.sealed nonce).header) = none) :
    m.verifyBlock (r.block.sealed nonce).header r.block.transactions r.block.certs =
      .ok (r.block.sealed nonce) := by
  obtain ⟨kept, hsub, htxs, hagain⟩ := View.executeOn_again h nonce hkind
  obtain ⟨hsenders, hzip⟩ := recoverSigner_kept fun c hc => hsigners c (hsub hc)
  have hfollows := View.executeOn_follows h
  have hparent : (r.block.sealed nonce).header.parentHash = W.hash v.parent := hfollows.1
  have hnum : (r.block.sealed nonce).header.number = v.parent.number + 1 := hfollows.2
  have hbeacon : (r.block.sealed nonce).header.parentBeaconBlockRoot = some (W.beacon r.block.certs.qc) :=
    r.block.beacon_eq
  unfold Node.verifyBlock
  rw [hfresh]
  simp only [bind_eq_ok, ensure_eq_ok, orThrow_eq_ok, beq_iff_eq, decide_eq_true_eq, hparent, hnum, hbeacon]
  refine ⟨v.parent, Node.headerOf_parent hview, (), rfl, (), htime, (), hgas, (), trivial, kept.map Prod.snd, ?_,
    v, hview, ⟨r.block.sealed nonce, []⟩, ?_, rfl⟩
  · rw [← htxs, hsenders]
  · rw [← htxs, hzip]
    exact hagain

/-- A block that a producer built is accepted by every node with the same state and ancestors, given
the header (sealed, if mined), the transactions and the certificates of its envelope, with the same
header hash and envelope, exactly if that node does not hold the header pending under another
envelope. -/
theorem producers_and_validators_agree (hn : n.Rooted) (hsame : n.SameAncestors m parent)
    {candidates : List (W.Tx × Address)} {timestamp : Nat} {beneficiary : Address} {extraData : Bytes}
    {certs : Certs} (hview : n.view parent = .ok v)
    (hbuild : n.buildOn parent candidates timestamp beneficiary extraData certs = .ok r)
    (hsigners : ∀ c ∈ candidates, W.recoverSigner c.1 = some c.2)
    (hgas : gasLimitRange.1 ≤ v.parent.gasLimit ∧ v.parent.gasLimit ≤ gasLimitRange.2)
    (hseals : v.Seals (r.block.sealed nonce).header) :
    (∃ p, m.verifyBlock (r.block.sealed nonce).header r.block.transactions r.block.certs = .ok p ∧
        W.hash p.header = W.hash (r.block.sealed nonce).header ∧ p.root = (r.block.sealed nonce).root) ↔
      ∀ p, m.pendingBlock (W.hash (r.block.sealed nonce).header) = some p →
        p.root = (r.block.sealed nonce).root := by
  simp only [Node.buildOn, bind_eq_ok] at hbuild
  obtain ⟨v', hv', hexec⟩ := hbuild
  obtain rfl : v' = v := Except.ok.inj (hv'.symm.trans hview)
  have hparent : W.hash v'.parent = parent := Node.headerOf_hash (Node.headerOf_parent hview)
  cases hpending : m.pendingBlock (W.hash (r.block.sealed nonce).header) with
  | some q =>
    -- the node answers with what it holds, whatever it was given
    have hverify : ∀ txs certs, m.verifyBlock (r.block.sealed nonce).header txs certs = .ok q := by
      intro txs certs
      unfold Node.verifyBlock
      rw [hpending]
    constructor
    · rintro ⟨p, hp, -, hroot⟩ q' hq'
      cases hq'
      rw [hverify] at hp
      cases hp
      exact hroot
    · intro hroot
      exact ⟨q, hverify _ _, (Node.mem_of_pendingBlock hpending).2, hroot q rfl⟩
  | none =>
    have hmview : m.view (W.hash v'.parent) = .ok v' := by
      rw [hparent, hsame.view_eq hn, hview]
    have hfields : r.block.header.timestamp = max timestamp (v'.parent.timestamp + 1) ∧
        r.block.header.gasLimit = nextGasLimit v'.parent.gasLimit n.gasTarget := by
      obtain ⟨kind, evm, audits, s, -, -, -, -, -, rfl⟩ := View.executeOn_ok hexec
      exact ⟨rfl, rfl⟩
    have htime : v'.parent.timestamp < r.block.header.timestamp := by
      rw [hfields.1]
      omega
    have hlimit : validGasLimit v'.parent.gasLimit r.block.header.gasLimit = true := by
      rw [hfields.2]
      exact nextGasLimit_valid n.gasTarget hgas.1 hgas.2
    have hverify := verifyBlock_again hexec hsigners hmview htime hlimit
      (View.checkKind_built hexec hseals) hpending
    constructor
    · intro _ q hq
      cases hq
    · intro _
      exact ⟨_, hverify, rfl, rfl⟩

end Agreement

namespace Held

/-- The block after genesis. It carries one audit certificate, whose signers can be padded. -/
def header : Header := mockHeader 0 1 1 1 []

def world : World := mockWorld [mockGenesis, header] 1000 fun _ => ⟨none, none⟩

def builder : Node world := (Node.opened world).addAuditCert [1]

def holder : Node world :=
  match (Node.opened world).verifyBlock header ([] : List Nat) ⟨[], [[1, 0]]⟩ with
  | .ok p => (Node.opened world).addPending p
  | .error _ => Node.opened world

def built : Except ChainError (View.Executed world) :=
  builder.buildOn (0 : Nat) ([] : List (Nat × Address)) 1 0 [] ⟨[], []⟩

theorem built_ok : ∃ r, built = .ok r ∧ r.block.header = header ∧ r.block.transactions = ([] : List Nat) ∧
    r.block.certs = ⟨[], [[1]]⟩ := by
  have h : built.toOption.map (fun r => (r.block.header, (r.block.transactions : List Nat), r.block.certs)) =
      some (header, ([] : List Nat), ⟨[], [[1]]⟩) := by decide +kernel
  cases hb : built with
  | error e => rw [hb] at h; cases h
  | ok r =>
    rw [hb] at h
    have h := Option.some.inj h
    exact ⟨r, rfl, congrArg Prod.fst h, congrArg (fun x => x.2.1) h, congrArg (fun x => x.2.2) h⟩

theorem rooted : builder.Rooted := ⟨List.isChain_singleton _, by rintro b ⟨⟩; rfl⟩

variable {n : Node world}

theorem pendingChain_genesis (h : n.head = mockGenesis) : n.pendingChain (0 : Nat) = .ok [] := by
  unfold Node.pendingChain Node.pendingChainFrom
  rw [if_pos]
  rw [h]
  decide +kernel

theorem view_genesis (h : n.head = mockGenesis) : n.view (0 : Nat) = .ok (n.viewOver []) := by
  rw [Node.view, pendingChain_genesis h]
  rfl

theorem seals (nonce : Nat) {h : Header} (hnum : h.number = 1) (hextra : h.extraData = []) :
    (builder.viewOver []).Seals { h with nonce } := by
  intro kind hkind
  have hmined : (builder.viewOver []).kindOf = .ok (.mined 1 false) := by decide +kernel
  obtain rfl := Except.ok.inj (hmined.symm.trans hkind)
  refine ⟨by simp [hextra], 0, ?_, rfl⟩
  simp only [hnum]
  decide +kernel

theorem holder_same : builder.SameAncestors holder (0 : Nat) := by
  have hsame : holder.head = mockGenesis ∧ holder.envelopes = builder.envelopes ∧
      holder.state = builder.state := by
    unfold holder
    split <;> exact ⟨rfl, rfl, rfl⟩
  refine ⟨hsame.2.1, hsame.2.2, ?_⟩
  rw [pendingChain_genesis hsame.1, pendingChain_genesis rfl]

theorem holder_answers {p : PendingBlock world}
    (h : holder.verifyBlock header ([] : List Nat) ⟨[], [[1]]⟩ = .ok p) : p.certs = ⟨[], [[1, 0]]⟩ := by
  have hcerts : (holder.verifyBlock header ([] : List Nat) ⟨[], [[1]]⟩).toOption.map (·.certs) =
      some ⟨[], [[1, 0]]⟩ := by decide +kernel
  rw [h] at hcerts
  exact Option.some.inj hcerts

end Held

theorem held_envelope_answers :
    ∃ v r, Held.builder.Rooted ∧ Held.builder.SameAncestors Held.holder (0 : Nat) ∧
      Held.builder.view (0 : Nat) = .ok v ∧
      Held.builder.buildOn (0 : Nat) ([] : List (Nat × Address)) 1 0 [] ⟨[], []⟩ = .ok r ∧
      (gasLimitRange.1 ≤ v.parent.gasLimit ∧ v.parent.gasLimit ≤ gasLimitRange.2) ∧
      v.Seals (r.block.sealed 0).header ∧
      ¬∃ p, Held.holder.verifyBlock (r.block.sealed 0).header r.block.transactions r.block.certs = .ok p ∧
        Held.world.hash p.header = Held.world.hash (r.block.sealed 0).header ∧
        p.root = (r.block.sealed 0).root := by
  obtain ⟨r, hr, hheader, htxs, hcerts⟩ := Held.built_ok
  have hsealed : (r.block.sealed 0).header = Held.header :=
    congrArg (fun h : Header => { h with nonce := 0 }) hheader
  refine ⟨Held.builder.viewOver [], r, Held.rooted, Held.holder_same, Held.view_genesis rfl, hr,
    by decide +kernel, ?_, ?_⟩
  · exact Held.seals 0 (by rw [hheader]; rfl) (by rw [hheader]; rfl)
  · rintro ⟨p, hp, -, hroot⟩
    rw [hsealed, htxs, hcerts] at hp
    have hlists : p.certs.audits = r.block.certs.audits :=
      congrArg Envelope.audits (Held.world.cid_inj hroot)
    rw [Held.holder_answers hp, hcerts] at hlists
    exact absurd hlists (by decide)

theorem built_block_verifies :
    ∃ r, Held.builder.buildOn (0 : Nat) ([] : List (Nat × Address)) 1 0 [] ⟨[], []⟩ = .ok r ∧
      ∃ p, Held.builder.verifyBlock (r.block.sealed 5).header r.block.transactions r.block.certs = .ok p ∧
        p.root = (r.block.sealed 5).root := by
  obtain ⟨r, hr, hheader, -, -⟩ := Held.built_ok
  have hsame : Held.builder.SameAncestors Held.builder (0 : Nat) := ⟨rfl, rfl, rfl⟩
  have hagree := (producers_and_validators_agree Held.rooted hsame (Held.view_genesis rfl) hr
    (fun c hc => by cases hc) (by decide +kernel)
    (Held.seals 5 (by rw [hheader]; rfl) (by rw [hheader]; rfl))).2 fun p hp => by cases hp
  obtain ⟨p, hp, -, hroot⟩ := hagree
  exact ⟨r, hr, p, hp, hroot⟩

end Boltchain.Chain
