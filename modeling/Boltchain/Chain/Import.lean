import Boltchain.Chain.ForkChoice

namespace Boltchain.Chain

open Consensus (Bytes Hash)
open Lib.Action Lib.Journal Lib.Sift

variable {W : World}

def Header.Follows (W : World) (h parent : Header) : Prop :=
  h.parentHash = W.hash parent ∧ h.number = parent.number + 1

namespace View

variable {v : View W} {wish : Wish} {txs : List (W.Tx × Address)} {expected : Option Header}
  {certs : Certs} {r : Executed W}

theorem executeOn_ok (h : v.executeOn wish txs expected certs = .ok r) :
    ∃ kind evm audits s, v.kindOf = .ok kind ∧ (∀ exp ∈ expected, v.checkKind exp kind = .ok ()) ∧
      v.start kind (v.paramsFor kind wish certs.qc) certs expected.isSome = .ok (evm, audits) ∧
      (Executor.new evm).addAll (v.paramsFor kind wish certs.qc) txs expected.isSome = .ok s ∧
      (∀ exp ∈ expected, exp = r.block.header) ∧
      r = ⟨v.finish kind wish certs.qc audits s.acc, s.refused⟩ := by
  simp only [executeOn, bind_eq_ok, ensure_eq_ok] at h
  obtain ⟨kind, hkind, ⟨⟩, hexp, ⟨evm, audits⟩, hstart, s, hadd, -, hheader, hr⟩ := h
  cases hr
  refine ⟨kind, evm, audits, s, hkind, ?_, hstart, hadd, ?_, rfl⟩
  · rintro exp rfl
    exact hexp
  · rintro exp rfl
    simpa using hheader

theorem executeOn_follows (h : v.executeOn wish txs expected certs = .ok r) :
    r.block.header.Follows W v.parent := by
  obtain ⟨kind, evm, audits, s, -, -, -, -, -, rfl⟩ := executeOn_ok h
  exact ⟨rfl, rfl⟩

theorem executeOn_stateRoot (h : v.executeOn wish txs expected certs = .ok r) :
    r.block.header.stateRoot = W.stateRoot (write v.db r.block.changes) := by
  obtain ⟨kind, evm, audits, s, -, -, -, -, -, rfl⟩ := executeOn_ok h
  rfl

end View

namespace Node

variable {n n' : Node W} {header : Header} {txs : List W.Tx} {certs : Certs} {p : PendingBlock W} {h : Hash}

theorem mem_of_pendingBlock (hp : n.pendingBlock h = some p) : p ∈ n.pending ∧ W.hash p.header = h :=
  ⟨List.mem_of_find?_eq_some hp, by simpa using List.find?_some hp⟩

variable {b : StoredBlock W}

theorem mem_of_block (hb : n.block h = some b) :
    b ∈ n.canonical ∧ W.hash b.header = h :=
  ⟨List.mem_of_find?_eq_some hb, by simpa using List.find?_some hb⟩

theorem mem_of_blockAt {k : Nat} (hb : n.blockAt k = some b) :
    b ∈ n.canonical ∧ b.header.number = k :=
  ⟨List.mem_of_find?_eq_some hb, by simpa using List.find?_some hb⟩

theorem mem_of_sideBlock {b : SideBlock W} (hb : n.sideBlock h = some b) :
    b ∈ n.side ∧ W.hash b.header = h :=
  ⟨List.mem_of_find?_eq_some hb, by simpa using List.find?_some hb⟩

theorem verifyBlock_ok (hfresh : n.pendingBlock (W.hash header) = none)
    (hv : n.verifyBlock header txs certs = .ok p) :
    ∃ parent senders v, n.headerOf header.parentHash = some parent ∧
      header.number = parent.number + 1 ∧ parent.timestamp < header.timestamp ∧
      validGasLimit parent.gasLimit header.gasLimit = true ∧
      header.parentBeaconBlockRoot = some (W.beacon certs.qc) ∧
      txs.mapM W.recoverSigner = some senders ∧ n.view header.parentHash = .ok v ∧
      ∃ r, v.executeOn (.of header) (txs.zip senders) (some header) certs = .ok r ∧ r.block = p := by
  unfold verifyBlock at hv
  rw [hfresh] at hv
  simp only [bind_eq_ok, ensure_eq_ok, orThrow_eq_ok, beq_iff_eq, decide_eq_true_eq] at hv
  obtain ⟨parent, hparent, -, hnum, -, htime, -, hgas, -, hcert, senders, hs, v, hview, r, hr, hp⟩ := hv
  cases hp
  exact ⟨parent, senders, v, hparent, hnum, htime, hgas, hcert, hs, hview, r, hr, rfl⟩

theorem verifyBlock_header (hv : n.verifyBlock header txs certs = .ok p) : p.header = header := by
  cases hp : n.pendingBlock (W.hash header) with
  | some q =>
    unfold verifyBlock at hv
    rw [hp] at hv
    cases hv
    exact W.hash_inj (mem_of_pendingBlock hp).2
  | none =>
    obtain ⟨parent, senders, v, -, -, -, -, -, -, -, r, hr, rfl⟩ := verifyBlock_ok hp hv
    obtain ⟨kind, evm, audits, s, -, -, -, -, hexp, -⟩ := View.executeOn_ok hr
    exact (hexp header rfl).symm

def Pends (n : Node W) : Prop := ∀ p ∈ n.pending, ∃ parent, p.header.Follows W parent

theorem verifyBlock_follows (hn : n.Pends) (hv : n.verifyBlock header txs certs = .ok p) :
    ∃ parent, p.header.Follows W parent := by
  cases hp : n.pendingBlock (W.hash header) with
  | some q =>
    unfold verifyBlock at hv
    rw [hp] at hv
    cases hv
    exact hn p (mem_of_pendingBlock hp).1
  | none =>
    obtain ⟨parent, senders, v, -, -, -, -, -, -, -, r, hr, rfl⟩ := verifyBlock_ok hp hv
    exact ⟨v.parent, View.executeOn_follows hr⟩

theorem pendingBlock_addPending (n : Node W) (p : PendingBlock W) :
    (n.addPending p).pendingBlock (W.hash p.header) = some p := by
  simp [addPending, pendingBlock]

theorem push_addPending (n : Node W) (p : PendingBlock W) : (n.addPending p).push p = n.push p := by
  have hfilter : (n.pending.filter fun q => W.hash q.header != W.hash p.header).filter
      (fun q => decide (p.header.number < q.header.number)) =
      n.pending.filter fun q => decide (p.header.number < q.header.number) := by
    rw [List.filter_filter]
    refine List.filter_congr fun q _ => ?_
    by_cases hlt : p.header.number < q.header.number
    · have hne : W.hash q.header ≠ W.hash p.header := fun heq =>
        hlt.ne (congrArg Header.number (W.hash_inj heq)).symm
      simp [hlt, hne]
    · simp [hlt]
  simp [push, addPending, canonical, hfilter]

end Node

section Calls

variable {n : Node W} {header : Header} {txs : List W.Tx} {certs : Certs} {root : Option Cid}

theorem commitPending_spec (n : Node W) (hash : Hash) :
    Ends (commitPending hash) n
      (fun _ n' => ∃ p, n.pendingBlock hash = some p ∧ p.header.parentHash = W.hash n.head ∧
        W.stateRoot (write n.state p.changes) = p.header.stateRoot ∧ n' = n.push p)
      (fun _ n' => n' = n) := by
  unfold commitPending
  refine Ends.bind (Ends.bind (Ends.lift ?_ fun _ _ => rfl))
  intro p hp
  refine Ends.bind (Ends.lift ?_ fun _ _ => rfl)
  intro _ hparent
  refine Ends.bind (Ends.lift ?_ fun _ _ => rfl)
  intro _ hroot
  exact ⟨p, orThrow_eq_ok.1 hp, by simpa using hparent, by simpa using hroot, rfl⟩

theorem verify_spec (n : Node W) (header : Header) (txs : List W.Tx) (certs : Certs) :
    Ends (verify header txs certs) n
      (fun p n' => n.verifyBlock header txs certs = .ok p ∧ n' = n.addPending p)
      (fun _ n' => n' = n) := by
  unfold verify
  refine Ends.bind (Ends.bind (Ends.lift ?_ fun _ _ => rfl))
  intro p hp
  exact ⟨hp, rfl⟩

theorem checkEnvelope_spec (n : Node W) (root : Option Cid) (p : PendingBlock W) :
    Ends (checkEnvelope root p) n (fun _ n' => (∀ r ∈ root, r = p.root) ∧ n' = n)
      (fun _ n' => n' = n.dropPending (W.hash p.header)) := by
  unfold checkEnvelope
  split
  case h_1 => exact Ends.bind rfl
  case h_2 hroot =>
    refine ⟨fun r hr => ?_, rfl⟩
    cases hr
    simpa [Option.filter_eq_none_iff] using hroot

theorem importFinal_spec (n : Node W) (header : Header) (txs : List W.Tx) (root : Option Cid)
    (certs : Certs) :
    Ends (importFinal header txs root certs) n
      (fun _ n' => ∃ p, n.verifyBlock header txs certs = .ok p ∧ header.parentHash = W.hash n.head ∧
        (∀ r ∈ root, r = p.root) ∧ W.stateRoot (write n.state p.changes) = header.stateRoot ∧
        n' = n.push p)
      (fun _ n' => n' = n ∨ ∃ p, n.verifyBlock header txs certs = .ok p ∧
        (n' = (n.addPending p).dropPending (W.hash p.header) ∨ n' = n.addPending p)) := by
  unfold importFinal
  refine Ends.bind (Ends.bind (Ends.lift ?_ fun _ _ => .inl rfl))
  intro _ hparent
  refine Ends.bind ((verify_spec n header txs certs).mono ?_ fun _ _ h => .inl h)
  rintro p _ ⟨hp, rfl⟩
  refine Ends.bind ((checkEnvelope_spec _ root p).mono ?_ fun _ _ h => .inr ⟨p, hp, .inl h⟩)
  rintro _ _ ⟨hroot, rfl⟩
  refine Ends.bind ((commitPending_spec _ _).mono ?_ fun _ _ h => .inr ⟨p, hp, .inr h⟩)
  rintro _ _ ⟨q, hq, -, hstate, rfl⟩
  rw [Node.pendingBlock_addPending] at hq
  cases hq
  rw [Node.push_addPending]
  rw [Node.verifyBlock_header hp] at hstate
  exact ⟨p, hp, by simpa using hparent, hroot, hstate, rfl⟩

theorem importFinal_ok {p : PendingBlock W} (hparent : header.parentHash = W.hash n.head)
    (hp : n.verifyBlock header txs certs = .ok p) (hroot : ∀ r ∈ root, r = p.root)
    (hstate : W.stateRoot (write n.state p.changes) = header.stateRoot) :
    importFinal header txs root certs n = .ok (W.hash header) (n.push p) := by
  obtain rfl := Node.verifyBlock_header hp
  have hverify : verify p.header txs certs n = .ok p (n.addPending p) := by
    rw [verify, get_bind, lift_bind hp]
    rfl
  have henv : checkEnvelope root p (n.addPending p) = .ok () (n.addPending p) := by
    have hnone : root.filter (· != p.root) = none := by
      rw [Option.filter_eq_none_iff]
      intro r hr
      simp [hroot r hr]
    rw [checkEnvelope, hnone]
    rfl
  have hcommit : commitPending (W.hash p.header) (n.addPending p) =
      .ok p.header ((n.addPending p).push p) := by
    rw [commitPending, get_bind, lift_bind (orThrow_eq_ok.2 (n.pendingBlock_addPending p)),
      lift_bind (ensure_ok (by exact beq_iff_eq.2 hparent)),
      lift_bind (ensure_ok (by exact beq_iff_eq.2 hstate))]
    rfl
  rw [importFinal, get_bind, lift_bind (ensure_ok (beq_iff_eq.2 hparent)), bind_of_ok hverify,
    bind_of_ok henv, bind_of_ok hcommit, Node.push_addPending]
  rfl

end Calls

/-- `n'` is `n` with the canonical blocks `removed` undone, all of them above `number`. The state root
of what is left was checked. -/
structure Unwound (number : Nat) (n n' : Node W) (removed : List (StoredBlock W)) : Prop where
  canonical : n.canonical = removed ++ n'.canonical
  above : ∀ b ∈ removed, number < b.header.number
  le : n'.head.number ≤ number
  stateRoot : removed ≠ [] → W.stateRoot n'.state = n'.head.stateRoot
  same : removed = [] → n' = n
  frame : n' = { n with tip := n'.tip, below := n'.below, state := n'.state, history := n'.history }

theorem unwind_ok {number : Nat} {below : List (StoredBlock W)} {n n' : Node W}
    {undone undone' : List (SideBlock W)} (hb : n.below = below)
    (h : Node.unwind number below n undone = .ok (n', undone')) :
    ∃ removed, Unwound number n n' removed ∧
      undone' = (removed.map StoredBlock.toSide).reverse ++ undone := by
  induction below generalizing n undone with
  | nil =>
    rw [Node.unwind] at h
    split at h
    case isTrue hle =>
      cases h
      exact ⟨[], ⟨rfl, by simp, hle, by simp, fun _ => rfl, rfl⟩, rfl⟩
    case isFalse => cases h
  | cons parent below ih =>
    rw [Node.unwind] at h
    split at h
    case isTrue hle =>
      cases h
      exact ⟨[], ⟨rfl, by simp, hle, by simp, fun _ => rfl, rfl⟩, rfl⟩
    case isFalse hgt =>
      simp only at h
      split at h
      case isFalse => cases h
      case isTrue hroot =>
        obtain ⟨removed, hu, rfl⟩ := ih rfl h
        refine ⟨n.tip :: removed, ⟨?_, ?_, hu.le, fun _ => ?_, by simp, ?_⟩, by simp⟩
        · rw [Node.canonical, hb, List.cons_append, ← hu.canonical]
          rfl
        · exact List.forall_mem_cons.2 ⟨Nat.lt_of_not_le hgt, hu.above⟩
        · by_cases hnil : removed = []
          · rw [hu.same hnil]
            exact hroot
          · exact hu.stateRoot hnil
        · rw [hu.frame]
          rfl

theorem unwindTo_spec (n : Node W) (number : Nat) :
    Ends (unwindTo number) n
      (fun undone n' => ∃ removed, Unwound number { n with pending := [] } n' removed ∧
        undone = (removed.map StoredBlock.toSide).reverse)
      (fun _ n' => n' = { n with pending := [] }) := by
  unfold unwindTo
  refine Ends.bind (Ends.bind (Ends.bind (Ends.lift ?_ fun _ _ => rfl)))
  rintro ⟨n', undone⟩ h
  obtain ⟨removed, hu, hundone⟩ := unwind_ok rfl h
  exact ⟨removed, hu, by simpa using hundone⟩

end Boltchain.Chain
