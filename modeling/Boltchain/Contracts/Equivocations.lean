import Boltchain.Contracts.EnclaveLease

namespace Boltchain.Contracts.EnclaveLease

open Lib Lib.Reentry

structure Evidence where
  lease : Nat
  version : Nat
  a : Leasing.Signed
  b : Leasing.Signed
deriving DecidableEq, Repr

def Evidence.Same (e e' : Evidence) : Prop := e' = e ∨ e' = ⟨e.lease, e.version, e.b, e.a⟩

/-- A report that succeeded: the operator it accused, and what the operator had at stake before the
call and after it. -/
structure Report where
  evidence : Evidence
  operator : Address
  before : Nat
  after : Nat
deriving DecidableEq, Repr

def Report.Took (r : Report) : Prop := r.after < r.before

def Once (reports : List Report) : Prop :=
  reports.Pairwise fun r r' => r.evidence.Same r'.evidence → r.Took → ¬ r'.Took

namespace Leasing

variable (T : Tee) (s : Leasing)

def funds (op : Address) : Nat := (s.operators op).bond + (s.operators op).unbonding

/-- The operator of the machine for which the key that signed the first checkpoint was activated. -/
def accused (e : Evidence) : Address :=
  let signer := T.recover (T.checkpointDigest e.lease e.version e.a.stateRoot e.a.cidHash e.a.seenBlockhash) e.a.sig
  ((s.machine? (s.signerMachine signer)).map Machine.operator).getD 0

end Leasing

/-- The contract with a record of the reports of equivocations that succeeded. -/
abbrev Docket := Leasing × List Report

def Op.reports (T : Tee) (s s' : Leasing) : Op → List Report
  | .reportEquivocation _ id version a b =>
    let op := s.accused T ⟨id, version, a, b⟩
    [⟨⟨id, version, a, b⟩, op, s.funds op, s'.funds op⟩]
  | _ => []

def Op.filed (T : Tee) (d : Docket) (op : Op) : Option Docket :=
  (op.effect T d.1).map fun s' => (s', d.2 ++ op.reports T d.1 s')

def docketEntry (T : Tee) : Op → Call Address Docket Unit
  | .withdraw sender dest => fun d => (send sender dest d.1).framed d.2
  | .payout account => fun d => (send account account d.1).framed d.2
  | op => Call.update fun d => op.filed T d

def DocketPasses (d d' : Docket) : Prop := Passes d.1 d'.1 ∧ d'.2 = d.2

/-- Checkpoints that have taken funds are reported again only while the operator has nothing at stake. -/
def Op.Spares (T : Tee) (op : Op) (d : Docket) : Prop :=
  match op with
  | .reportEquivocation _ id version a b =>
    (∃ r ∈ d.2, r.Took ∧ r.evidence.Same ⟨id, version, a, b⟩) → d.1.funds (d.1.accused T ⟨id, version, a, b⟩) = 0
  | _ => True

section Reports

variable {T : Tee} {s s' : Leasing} {sender : Address} {id version m : Nat} {a b : Leasing.Signed} {mc : Machine}

namespace Leasing

theorem operators_credit {account : Address} {amount : Nat} (h : s.credit account amount = some s') :
    s'.operators = s.operators := by
  simp only [credit, bind, Option.bind_eq_some_iff] at h
  obtain ⟨sum, -, h⟩ := h
  cases h
  rfl

theorem operators_endLease (h : s.endLease id = some s') : s'.operators = s.operators := by
  simp only [endLease, bind, Option.bind_eq_some_iff] at h
  obtain ⟨l, -, mc, -, h⟩ := h
  have hops := operators_credit h
  exact hops

theorem funds_slashOperator (h : s.slashOperator sender m mc = some s') : s'.funds mc.operator = 0 := by
  simp only [slashOperator, bind, Option.bind_eq_some_iff] at h
  obtain ⟨s₁, h₁, b, -, h⟩ := h
  cases h
  have hops := operators_credit h₁
  simp [funds, setMachine, hops, setOperator]

theorem funds_reportEquivocation (h : s.reportEquivocation T sender id version a b = some s') :
    s'.funds (s.accused T ⟨id, version, a, b⟩) = 0 := by
  simp only [reportEquivocation, bind, Option.bind_eq_some_iff, Checked.require_eq_some, exists_const] at h
  obtain ⟨-, -, l, -, mc, hmc, s₁, h₁, h⟩ := h
  have haccused : s.accused T ⟨id, version, a, b⟩ = mc.operator := by
    simp only [accused, hmc, Option.map_some, Option.getD_some]
  rw [haccused]
  have hslashed := funds_slashOperator h₁
  split at h
  · rw [funds, operators_endLease h]
    exact hslashed
  · cases h
    exact hslashed

end Leasing

theorem once_filed_iff {d d' : Docket} (hd : Once d.2)
    (h : (Op.reportEquivocation sender id version a b).filed T d = some d') :
    Once d'.2 ↔ (Op.reportEquivocation sender id version a b).Spares T d := by
  obtain ⟨s', hs', rfl⟩ := Option.map_eq_some_iff.1 h
  have hafter := Leasing.funds_reportEquivocation hs'
  have hpairwise : Once (d.2 ++ (Op.reportEquivocation sender id version a b).reports T d.1 s') ↔
      ∀ r ∈ d.2, r.evidence.Same ⟨id, version, a, b⟩ → r.Took →
        ¬ 0 < d.1.funds (d.1.accused T ⟨id, version, a, b⟩) := by
    rw [Once, List.pairwise_append]
    simp only [Op.reports, List.mem_singleton, forall_eq, List.pairwise_singleton, true_and]
    rw [and_iff_right (show d.2.Pairwise _ from hd)]
    simp only [Report.Took, hafter]
  rw [hpairwise, Op.Spares]
  constructor
  · rintro hspared ⟨r, hr, htook, hsame⟩
    exact Nat.eq_zero_of_not_pos (hspared r hr hsame htook)
  · intro hspared r hr hsame htook hpos
    have hzero := hspared ⟨r, hr, htook, hsame⟩
    omega

theorem once_filed {op : Op} {d d' : Docket} (hd : Once d.2) (hspares : op.Spares T d) (h : op.filed T d = some d') :
    Once d'.2 := by
  cases op with
  | reportEquivocation sender id version a b => exact (once_filed_iff hd h).2 hspares
  | _ =>
    obtain ⟨s', -, rfl⟩ := Option.map_eq_some_iff.1 h
    simpa only [Op.reports, List.append_nil] using hd

theorem docketEntry_keeps {refuses : Address → Prop} {op : Op} {d : Docket} (hd : Once d.2) (hspares : op.Spares T d) :
    (docketEntry T op d).Keeps refuses fun d => Once d.2 := by
  have hupdate : ((Call.update fun d => op.filed T d : Call Address Docket Unit) d).Keeps refuses fun d => Once d.2 := by
    rw [Code.Keeps, Call.ends_update]
    exact fun d' h => once_filed hd hspares h
  cases op with
  | withdraw sender dest => exact Code.framed_keeps hd
  | payout account => exact Code.framed_keeps hd
  | _ => exact hupdate

end Reports

section Mock

theorem run_of_filed {refuses : Address → Prop} {T : Tee} {ok : Op → Docket → Prop} (ops : List Op) {d d' : Docket}
    (hops : ∀ op ∈ ops, ∀ d, docketEntry T op d = (Call.update fun d => op.filed T d : Call Address Docket Unit) d)
    (hok : ∀ op ∈ ops, ∀ d, ok op d) (h : ops.foldlM (Op.filed T) d = some d') :
    Run refuses (docketEntry T) ok ok DocketPasses d d' := by
  induction ops generalizing d with
  | nil =>
    cases h
    exact .refl _
  | cons op ops ih =>
    rw [List.foldlM_cons] at h
    obtain ⟨d₁, h₁, h⟩ := Option.bind_eq_some_iff.1 h
    have hcode : docketEntry T op d = .ret d₁ () := by
      rw [hops op List.mem_cons_self, Call.update, h₁]
      rfl
    have hfirst : Run refuses (docketEntry T) ok ok DocketPasses d d₁ :=
      .call op (.refl d) (hok op List.mem_cons_self d) (hcode ▸ .ret d₁)
    exact hfirst.trans (ih (fun op' hop' => hops op' (List.mem_cons_of_mem _ hop'))
      (fun op' hop' => hok op' (List.mem_cons_of_mem _ hop')) h)

def mockTee : Tee := ⟨fun _ => 1, fun _ => 1, fun _ _ _ _ => 1, fun _ _ _ _ _ => 1, fun _ _ => 9, fun _ _ _ => true⟩

/-- Account 1 offers a machine and bonds 100, and account 2 has a lease on it, active under key 9. -/
def mockBonded : List Op :=
  [.registerTdx 1 ⟨5, 1, 1, 6, 7⟩, .setOffer 1 1 10 true, .depositBond 1 100, .createLease 2 100 3 1 4 6 1 0 2,
    .activateTdx 2 1 9 8 ⟨5, 1, 1, 6, 7⟩]

/-- Account 3 shows two roots that key 9 signed for version 1 of the lease. -/
def mockReport : Op := .reportEquivocation 3 1 1 ⟨1, 1, 1, []⟩ ⟨2, 1, 1, []⟩

end Mock

end Boltchain.Contracts.EnclaveLease
