import Boltchain.Chain.Import

namespace Boltchain.Chain

open Consensus (Bytes Hash)
open Lib.Action Lib.Journal Lib.Sift

variable {W : World}

section Audits

variable {db : W.State} {number : Nat} {certs : List Bytes} {strict : Bool} {c : CheckedAudits}

theorem judgePanel_pass {p : Panels} {bytes : Bytes} :
    judgePanel W db number p bytes = .ok .pass ↔
      W.decodeAttest bytes = none ∧ W.decodeVerdict bytes = none := by
  unfold judgePanel
  split
  case h_1 hattest =>
    simp only [hattest, bind_eq_ok, reduceCtorEq, false_and, iff_false, not_exists, not_and]
    rintro ok - h
    cases ok <;> cases h
  case h_2 hattest =>
    split
    case h_1 hverdict => simp [hattest, hverdict]
    case h_2 hverdict =>
      simp only [hattest, hverdict, bind_eq_ok, reduceCtorEq, and_false, iff_false, not_exists, not_and]
      rintro ok - h
      cases ok <;> cases h

theorem checkAudits_ok :
    checkAudits W db number certs strict = .ok c ↔
      ∃ s, sift (fun _ => false) (judgePanel W db number) strict ChainError.invalidBlock certs ⟨[], []⟩ =
          .ok s ∧
        ((s.passed = [] ∧ c = ⟨[], s.acc, s.kept⟩) ∨
          (s.passed ≠ [] ∧ ∃ panel states keys t, W.audits db (W.epochOf number) = some (panel, states) ∧
            panelKeys W db (some panel) = .ok keys ∧
            sift (fun _ => false) (judgeAudit W (W.epochOf number) states keys) strict
              ChainError.invalidBlock s.passed [] = .ok t ∧
            c = ⟨t.acc, s.acc, s.kept ++ t.kept⟩)) := by
  simp only [checkAudits, bind_eq_ok]
  refine exists_congr fun s => and_congr_right fun _ => ?_
  by_cases hnil : s.passed = []
  · simp only [hnil, List.isEmpty_nil, if_true, ne_eq, not_true, false_and, or_false, true_and]
    constructor
    · intro h; cases h; rfl
    · rintro rfl; rfl
  · simp only [List.isEmpty_iff, hnil, if_false, false_and, false_or, ne_eq, not_false_eq_true, true_and,
      bind_eq_ok, orThrow_eq_ok]
    constructor
    · rintro ⟨⟨panel, states⟩, haudits, keys, hkeys, t, ht, h⟩
      cases h
      exact ⟨panel, states, keys, t, haudits, hkeys, ht, rfl⟩
    · rintro ⟨panel, states, keys, t, haudits, hkeys, ht, rfl⟩
      exact ⟨(panel, states), haudits, keys, hkeys, t, ht, rfl⟩

theorem checkAudits_kept (h : checkAudits W db number certs strict = .ok c) :
    checkAudits W db number c.kept true = .ok c := by
  obtain ⟨s, hs, ⟨-, rfl⟩ | ⟨-, panel, states, keys, t, haudits, hkeys, ht, rfl⟩⟩ := checkAudits_ok.1 h
  · have hagain := sift_kept hs (List.forall_mem_nil _)
    rw [List.append_nil] at hagain
    exact checkAudits_ok.2 ⟨_, hagain, .inl ⟨rfl, rfl⟩⟩
  · have hpass : ∀ b ∈ t.kept, ∀ p, judgePanel W db number p b = .ok .pass := by
      intro b hb p
      obtain ⟨q, hq⟩ := sift_passed hs b ((sift_subset ht).1 hb)
      exact judgePanel_pass.2 (judgePanel_pass.1 hq)
    have hagain := sift_kept hs hpass
    have haudit := sift_kept ht (List.forall_mem_nil _)
    rw [List.append_nil] at haudit
    refine checkAudits_ok.2 ⟨_, hagain, ?_⟩
    by_cases hnil : t.kept = []
    · -- no audit counted: the second pass is not made again, and had recorded nothing
      rw [hnil] at haudit
      have hacc : t.acc = [] := (congrArg Sifted.acc (Except.ok.inj haudit)).symm
      exact .inl ⟨hnil, by rw [hacc, hnil, List.append_nil]⟩
    · exact .inr ⟨hnil, panel, states, keys, _, haudits, hkeys, haudit, rfl⟩

end Audits

namespace Executor

variable {params params' : BlockParams} {x : Executor W} {txs : List (W.Tx × Address)} {strict : Bool}
  {s : Sifted (Executor W) (W.Tx × Address) TxRejection}

theorem addAll_congr (h : params'.input = params.input) :
    x.addAll params' txs strict = x.addAll params txs strict := by
  cases params
  cases params'
  cases h
  rfl

theorem add_transactions {tx : W.Tx} {sender : Address} {x' : Executor W}
    (h : x.add params tx sender = .ok (.keep x')) : x'.transactions = x.transactions ++ [tx] := by
  simp only [add] at h
  split at h
  · cases h
  split at h
  · cases h
  split at h
  · cases h
  split at h
  · cases h
  · cases h
  · cases h
    rfl

theorem addAll_transactions (h : x.addAll params txs strict = .ok s) :
    s.acc.transactions = x.transactions ++ s.kept.map Prod.fst :=
  sift_acc (fun _ _ _ hkeep => add_transactions hkeep) h

theorem addAll_kept (h : x.addAll params txs strict = .ok s) :
    x.addAll params s.kept true = .ok ⟨s.acc, s.kept, [], []⟩ := by
  have hagain := sift_kept h (List.forall_mem_nil _)
  rwa [List.append_nil] at hagain

end Executor

def PendingBlock.sealed (p : PendingBlock W) (nonce : Nat) : PendingBlock W :=
  { p with header := { p.header with nonce } }

namespace View

variable {v : View W} {wish : Wish} {txs : List (W.Tx × Address)} {expected : Option Header}
  {certs : Certs} {r : Executed W}

variable {audits : List Bytes} {evm : W.Evm} {kind : BlockKind} {strict : Bool}

theorem start_ok {params : BlockParams} :
    v.start kind params certs strict = .ok (evm, audits) ↔
      v.checkCarried kind certs.qc = .ok () ∧
      ∃ index checked evm₀, v.epochIndexOf params.input.number = .ok index ∧
        checkAudits W v.db params.input.number certs.audits strict = .ok checked ∧
        W.begin v.db v.blockHash params.input params.parentHash params.parentBeaconRoot = some evm₀ ∧
        W.preBlock evm₀ params.input v.parent (W.certVotes certs.qc) (producer kind)
          ⟨index, checked.results, checked.panels.verdicts, checked.panels.attests⟩ = some evm ∧
        checked.kept = audits := by
  simp only [start, bind_eq_ok, orThrow_eq_ok]
  constructor
  · rintro ⟨⟨⟩, hcarried, index, hindex, checked, hchecked, evm₀, hbegin, evm₁, hpre, h⟩
    cases h
    exact ⟨hcarried, index, checked, evm₀, hindex, hchecked, hbegin, hpre, rfl⟩
  · rintro ⟨hcarried, index, checked, evm₀, hindex, hchecked, hbegin, hpre, rfl⟩
    exact ⟨(), hcarried, index, hindex, checked, hchecked, evm₀, hbegin, evm, hpre, rfl⟩

theorem start_kept
    (h : v.start kind (v.paramsFor kind wish certs.qc) certs strict = .ok (evm, audits)) (nonce : Nat) :
    v.start kind (v.paramsFor kind { wish with nonce } certs.qc) ⟨certs.qc, audits⟩ true =
      .ok (evm, audits) := by
  obtain ⟨hcarried, index, checked, evm₀, hindex, hchecked, hbegin, hpre, rfl⟩ := start_ok.1 h
  exact start_ok.2 ⟨hcarried, index, checked, evm₀, hindex, checkAudits_kept hchecked, hbegin, hpre, rfl⟩

theorem executeOn_again (h : v.executeOn wish txs expected certs = .ok r) (nonce : Nat)
    (hkind : ∀ kind, v.kindOf = .ok kind → v.checkKind (r.block.sealed nonce).header kind = .ok ()) :
    ∃ kept, kept ⊆ txs ∧ kept.map Prod.fst = r.block.transactions ∧
      v.executeOn (.of (r.block.sealed nonce).header) kept (some (r.block.sealed nonce).header)
        r.block.certs = .ok ⟨r.block.sealed nonce, []⟩ := by
  obtain ⟨kind, evm, audits, s, hk, -, hstart, hadd, -, rfl⟩ := executeOn_ok h
  have htxs := Executor.addAll_transactions hadd
  have hadd' : (Executor.new evm).addAll (v.paramsFor kind { wish with nonce } certs.qc) s.kept true =
      .ok ⟨s.acc, s.kept, [], []⟩ :=
    (Executor.addAll_congr rfl).trans (Executor.addAll_kept hadd)
  refine ⟨s.kept, (sift_subset hadd).1, htxs.symm, ?_⟩
  simp only [executeOn, bind_eq_ok, ensure_eq_ok]
  refine ⟨kind, hk, (), hkind kind hk, (evm, audits), start_kept hstart nonce, _, hadd', (), ?_, rfl⟩
  exact beq_self_eq_true _

end View

end Boltchain.Chain
