import Boltchain.Consensus.Refine

namespace Boltchain.Consensus

open Lib.Assoc

variable {S : Scheme} {c : Ctx S} {K : Knowledge} {e e' : Engine S} {g : Ghost S}

structure CertsIn (c : Ctx S) (K : Knowledge) (qc : Qc S) (tc : Option (Tc S)) : Prop where
  qc : c.verifyQc qc = true → QcOk c K qc
  tc : ∀ t ∈ tc, c.verifyTc t = true → TcOk c K t

theorem checked_of_checkProposal {p : Proposal S} (hm : Mem c K e) (hin : CertsIn c K p.qc p.tc)
    (h : e.checkProposal c.H p = true) : Checked c K p := by
  simp only [Engine.checkProposal, Engine.isNilHeight, Engine.verifyQc, Engine.verifyTc, hm.cfg,
    Bool.and_eq_true, beq_iff_eq, decide_eq_true_eq, Bool.or_eq_true, Bool.not_eq_true',
    decide_eq_false_iff_not] at h
  obtain ⟨⟨⟨⟨⟨⟨⟨⟨⟨-, -⟩, -⟩, hparent⟩, hheight⟩, habove⟩, hnil⟩, -⟩, hqc⟩, htc⟩ := h
  refine ⟨hparent, hheight, habove, fun hlt => (hnil.resolve_left (not_not.2 hlt)).1, hin.qc hqc, ?_⟩
  intro tc hmem
  rw [Option.mem_def] at hmem
  rw [hmem] at htc
  simp only [Bool.and_eq_true, beq_iff_eq] at htc
  exact ⟨htc.1, hin.tc tc hmem htc.2⟩

variable {enter : Nat → Option (Tc S) → Engine S → Outcome S}

section

variable (henter : Enters c K enter)

include henter

variable {p : Proposal S}

theorem Runs.considerVote {nil : Bool} (hm : Mem c K e) (hp : Checked c K p)
    (hhigh : p.qc.round ≤ e.highQc.round) (hnil : nil = true → c.cfg.endHeight < p.block.height) :
    Runs c K e g (Engine.considerVote enter p nil e) := by
  unfold Engine.considerVote
  dsimp only
  split
  case isTrue => exact .nothing
  case isFalse =>
    split
    case isTrue => exact .nothing
    case isFalse =>
      split
      case isTrue => exact .nothing
      case isFalse =>
        have hpend : Micro c K (e, g) ({ e with pending := put e.pending p.block.hash p }, g) :=
          .pending hp hhigh
        apply Runs.step hpend
        split
        case isFalse =>
          exact .ret .refl (fun _ => .cons trivial .nil)
            ⟨(List.append_nil _).symm, (List.append_nil _).symm, rfl⟩
        case isTrue h =>
          apply Runs.onValidated henter (hpend.mem hm)
          intro _ q hq
          rw [put, List.lookup_cons_self] at hq
          cases hq
          exact .inl (hnil h)

theorem Runs.onProposal (hm : Mem c K e) (hin : CertsIn c K p.qc p.tc)
    (hstore : e.Stores c.H p → c.stored p.block) :
    Runs c K e g (Engine.onProposal c.H enter p e) := by
  unfold Engine.onProposal
  split
  case isTrue => exact .nothing
  case isFalse hcheck =>
    rw [Bool.not_eq_true', Bool.not_eq_false] at hcheck
    have hp := checked_of_checkProposal hm hin hcheck
    have hinsert : Steps c K (e, g) (e.insertBlock p.block, g) := by
      by_cases hnew : (e.blocks.lookup p.block.hash).isNone = true ∧ e.committed.height < p.block.height
      · refine .single (.insertBlock ?_)
        by_cases hlt : c.cfg.endHeight < p.block.height
        · exact .inr (.inr ⟨hlt, hp.nil hlt, hp.placed_nil hlt⟩)
        · refine .inr (.inl (hstore ⟨hcheck, hnew.1, hnew.2, ?_⟩))
          rw [hm.cfg]
          omega
      · rw [Engine.insertBlock, if_neg hnew]
    have hm₁ : Mem c K (e.insertBlock p.block) := hinsert.mem hm
    refine Runs.after hinsert (.refl g) (Runs.step (.recordQc hp.qc) ?_)
    apply (Runs.processQc_recorded henter hm₁ hp.qc).andThen
    intro e₁ g₁ hs₁
    have hm₂ : Mem c K e₁ := hs₁.mem (hm₁.recordQc hp.qc)
    have htc : Runs c K e₁ g₁ (Engine.processTcOpt enter p.tc e₁) := by
      cases htc : p.tc with
      | none => exact .nothing
      | some tc => exact .processTc henter hm₂ (hp.tc tc htc).2
    apply htc.andThen
    intro e₂ g₂ hs₂
    apply Runs.considerVote henter (hs₂.mem hm₂) hp
    · refine le_trans ?_ (hs₁.grows.high.trans hs₂.grows.high)
      simp only [Engine.recordQc]
      split <;> omega
    · rw [Engine.isNilHeight, hm.cfg, decide_eq_true_eq]
      exact id

end

def Quiet (e : Engine S) (o : Outcome S) : Prop :=
  ∀ e' l, o = some (e', l) → (∀ h, l.any (Engine.isValidate h) = false) ∧ e'.timeouts ⊆ e.timeouts

/-- A call that asks for no validation and collects no timeouts. -/
def Still : Rel S := fun e e' l => (∀ h, l.any (Engine.isValidate h) = false) ∧ e'.timeouts ⊆ e.timeouts

variable {l : List (Effect S)}

theorem still_of_frame {e e' : Engine S} (ht : e'.timeouts = e.timeouts)
    (hl : ∀ x ∈ l, ∀ h, Engine.isValidate h x = false) : Still e e' l := by
  refine ⟨fun h => ?_, ht ▸ List.Subset.refl _⟩
  rw [List.any_eq_false]
  intro x hx
  rw [hl x hx h]
  exact Bool.false_ne_true

theorem Quiet.of_still {o : Outcome S} (h : Does Still e o) : Quiet e o := fun e' l heq => (h e' l heq).2

theorem Still.trans {e e₁ e' : Engine S} {a b : List (Effect S)} (h : Still e e₁ a) (h' : Still e₁ e' b) :
    Still e e' (a ++ b) := by
  refine ⟨fun x => ?_, List.Subset.trans h'.2 h.2⟩
  rw [List.any_append, h.1, h'.1]
  rfl

theorem Engine.Settling.still {e e' : Engine S} (h : e.Settling e' l) : Still e e' l := by
  obtain ⟨_, _, _, _, rfl⟩ := h.frame
  refine still_of_frame rfl fun x hx _ => ?_
  cases h.settles x hx <;> rfl

theorem still_of_utters (h : ∀ x ∈ l, x.Utters) : Still e e l := by
  refine still_of_frame rfl fun x hx _ => ?_
  cases h x hx <;> rfl

theorem carries_still (H : Hasher) : Carries H (fun _ => True) (fun _ => False) (Still (S := S)) (fun _ => Still) where
  nothing := still_of_frame rfl (by simp)
  trans := Still.trans
  erase _ h := ⟨fun _ => List.any_eq_false.2 fun x hx => List.any_eq_false.1 (h.1 _) x (List.mem_of_mem_eraseP hx), h.2⟩
  stay hcommit _ := (Engine.settling_tryCommit hcommit).still
  leave hcommit _ henter := Still.trans (Engine.settling_tryCommit hcommit).still henter
  enter _ h := h
  opens {_ e₁ _ _ _ _ _} _ hretry hopens := by
    have hprune : e₁.prune.timeouts ⊆ e₁.timeouts := fun x hx => (List.mem_filter.1 hx).1
    refine Still.trans (Engine.settling_retryCommit hretry).still ?_
    cases hopens with
    | finished => exact still_of_frame rfl (by simp)
    | _ => exact ⟨fun _ => rfl, hprune⟩
  follow := Still.trans
  insert _ _ _ := still_of_frame rfl (by simp)
  count _ _ _ := still_of_frame rfl (by simp)
  pend _ _ := still_of_frame rfl (by simp)
  validate h := h.elim
  utter _ hl := still_of_utters hl

section

variable (hq : ∀ r tc (e : Engine S), e.round < r → Does Still e (enter r tc e)) {p : Proposal S} {h : Hash}

include hq

theorem considerVote_validate (H : Hasher) {nil : Bool} (heq : Engine.considerVote enter p nil e = some (e', l))
    (hany : l.any (Engine.isValidate h) = true) : e'.pending.lookup h = some p := by
  unfold Engine.considerVote at heq
  dsimp only at heq
  split at heq
  case isTrue =>
    cases heq
    cases hany
  case isFalse =>
    split at heq
    case isTrue =>
      cases heq
      cases hany
    case isFalse =>
      split at heq
      case isTrue =>
        cases heq
        cases hany
      case isFalse =>
        split at heq
        case isTrue =>
          have hstill := Quiet.of_still (Does.onValidated (carries_still H) hq) _ _ heq
          rw [hstill.1] at hany
          cases hany
        case isFalse =>
          cases heq
          simp only [List.any_cons, List.any_nil, Bool.or_false, Engine.isValidate, beq_iff_eq] at hany
          subst hany
          exact List.lookup_cons_self

theorem onProposal_validate (heq : Engine.onProposal c.H enter p e = some (e', l))
    (hany : l.any (Engine.isValidate h) = true) : e'.pending.lookup h = some p := by
  unfold Engine.onProposal at heq
  split at heq
  case isTrue =>
    cases heq
    cases hany
  case isFalse =>
    obtain ⟨e₁, a, b, h₁, hrest, rfl⟩ := Outcome.andThen_eq_some heq
    obtain ⟨e₂, a', b', h₂, hlast, rfl⟩ := Outcome.andThen_eq_some hrest
    have hqc := Quiet.of_still (Does.processQc (carries_still c.H) hq) _ _ h₁
    have htc := Quiet.of_still (Does.processTcOpt (carries_still c.H) hq) _ _ h₂
    rw [List.any_append, List.any_append, hqc.1, htc.1, Bool.false_or, Bool.false_or] at hany
    exact considerVote_validate hq c.H hlast hany

end

theorem signs_eraseP (l : List (Effect S)) (h : Hash) :
    signs (l.eraseP (Engine.isValidate h)) = signs l ∧ commits (l.eraseP (Engine.isValidate h)) = commits l ∧
      asks (l.eraseP (Engine.isValidate h)) = asks l := by
  induction l with
  | nil => exact ⟨rfl, rfl, rfl⟩
  | cons x l ih =>
    rw [List.eraseP_cons]
    cases hx : Engine.isValidate h x with
    | true =>
      match x, hx with
      | .act (.validate p), _ => exact ⟨rfl, rfl, rfl⟩
    | false =>
      obtain ⟨h1, h2, h3⟩ := ih
      rw [cond_false]
      refine ⟨?_, ?_, ?_⟩
      · rw [signs, List.filterMap_cons, ← signs, h1]
        rfl
      · rw [commits, List.flatMap_cons, ← commits, h2]
        rfl
      · rw [asks, List.filterMap_cons, ← asks, h3]
        rfl

theorem Runs.eraseP (h : Hash) (ho : Runs c K e g (some (e₁, l))) :
    Runs c K e g (some (e₁, l.eraseP (Engine.isValidate h))) := by
  obtain ⟨hs, hc, ha⟩ := signs_eraseP l h
  rintro e' l' ⟨⟩ hK
  rw [hs] at hK
  obtain ⟨hl, hend, g₁, hsteps, hr⟩ := ho e₁ l rfl hK
  refine ⟨fun a ha => hl a (List.mem_of_mem_eraseP ha), fun h => hend ?_, g₁, hsteps, by rw [hs]; exact hr.signed, by rw [hc]; exact hr.emitted,
    by rw [ha]; exact hr.asked⟩
  obtain ⟨x, hx, hends⟩ := List.any_eq_true.1 h
  exact List.any_eq_true.2 ⟨x, List.mem_of_mem_eraseP hx, hends⟩

section

variable (henter : Enters c K enter) (hq : ∀ r tc (e : Engine S), e.round < r → Does Still e (enter r tc e))

include henter hq

theorem Runs.onProposed {block : BlockInfo} {qc : Qc S} {tc : Option (Tc S)} {payload : Bytes}
    (hm : Mem c K e) (hin : CertsIn c K qc tc) (hask : c.unasked ∨ CertsOk c K qc tc) (hf : g.fresh = true)
    (hstore : block.height ≤ c.cfg.endHeight → c.stored block)
    (hvalid : c.cfg.endHeight < block.height ∨ c.valid block) :
    Runs c K e g (Engine.onProposed c.H enter block qc tc payload e) := by
  unfold Engine.onProposed
  dsimp only
  split
  case isTrue => exact .nothing
  case isFalse hcond =>
    simp only [not_or, not_not, Bool.not_eq_false] at hcond
    obtain ⟨hround, hme, -⟩ := hcond
    have hmsg : e.proposalMsg c.H block.round block.hash payload =
        .proposal c.cfg.chainId c.cfg.epoch e.round block.hash (c.H.keccak256 payload) := by
      rw [Engine.proposalMsg, hm.cfg, hround]
    have hsign : Micro c K (e, g) (e, { g with
        signed := g.signed ++ [(e.leader block.round, e.proposalMsg c.H block.round block.hash payload)]
        fresh := false }) := by
      rw [hmsg]
      refine .signProposal ?_ hf
      rw [← hm.cfg]
      simpa [Engine.isMe] using hme
    split
    case h_1 => exact .diverges
    case h_2 _ e₁ out heq =>
      have hout : Runs c K e g (some (e₁, .sign (e.leader block.round)
          (e.proposalMsg c.H block.round block.hash payload) e.stamp ::
          .act (.broadcast (.proposal (e.ownProposal c.H block qc tc payload))) :: out)) := by
        rintro e' l ⟨⟩ hK
        obtain ⟨hl, hend, g₁, hs, hr⟩ := Runs.onProposal henter hm hin
          (fun h => hstore (hm.cfg ▸ h.2.2.2)) e₁ out heq (fun x hx => hK x (List.mem_cons_of_mem _ hx))
        have hsigned := hK (e.leader block.round, e.proposalMsg c.H block.round block.hash payload)
          List.mem_cons_self
        rw [Engine.proposalMsg, congrArg Config.chainId hm.cfg] at hsigned
        refine ⟨.cons trivial (.cons ⟨hask, hsigned⟩ hl), hend, g₁, .head hsign hs, ?_, hr.emitted, hr.asked⟩
        rw [hr.signed]
        exact List.append_assoc _ _ _
      split
      case isFalse => exact hout
      case isTrue hany =>
        apply (hout.eraseP block.hash).bind
        rintro e₂ g₂ a ha ⟨⟩ hs
        have hany : out.any (Engine.isValidate block.hash) = true := by
          simpa [Engine.isValidate] using hany
        apply Runs.onValidated henter (hs.mem hm)
        intro _ p hp
        rw [onProposal_validate hq heq hany] at hp
        cases hp
        exact hvalid

end

/-- Entering rounds goes through the allowed updates only, however many rounds it takes. -/
theorem Runs.enterRound (n : Nat) : Enters c K (Engine.enterRound c.H n) := by
  induction n with
  | zero => exact fun _ _ _ _ _ _ => .diverges
  | succ n ih =>
    intro r tc e g hm htc
    unfold Engine.enterRound
    dsimp only
    split
    case isTrue => exact .nothing
    case isFalse hr =>
      rw [not_le] at hr
      have hround : Micro c K (e, g) ({ e with round := r, entryTc := tc, requested := [] },
          { g with opened := some r, fresh := false }) := .round hr htc
      have hm₁ : Mem c K { e with round := r, entryTc := tc, requested := [] } := hround.mem hm
      refine Runs.after (.single hround) ⟨(List.append_nil _).symm, (List.append_nil _).symm, rfl⟩ ?_
      apply Runs.bind
      · split
        case h_1 q hq => exact .tryCommit hm₁ (hm.blocked q hq)
        case h_2 => exact .nothing
      · intro e₁ g₁ a _ heq hs
        have hm₂ : Mem c K e₁ := hs.mem hm₁
        have hopen : g₁.opened = some e₁.round := hs.opened rfl
        have heq₁ : e₁.round = r := by
          split at heq
          case h_1 => exact (Engine.settling_tryCommit heq).frame.round
          case h_2 => cases heq; rfl
        split
        case isTrue => exact .nothing
        case isFalse =>
          apply Runs.step .prune
          split
          case isFalse =>
            exact .ret .refl (fun _ => .cons trivial .nil)
              ⟨(List.append_nil _).symm, (List.append_nil _).symm, rfl⟩
          case isTrue hlead =>
            rw [Bool.and_eq_true, Bool.not_eq_true', List.contains_eq_mem, decide_eq_false_iff_not] at hlead
            subst heq₁
            have hgrant : Micro c K (e₁.prune, g₁)
                ({ e₁.prune with proposed := e₁.round :: e₁.prune.proposed }, { g₁ with fresh := true }) :=
              .grant hopen hlead.2
            have hm₃ : Mem c K { e₁.prune with proposed := e₁.round :: e₁.prune.proposed } :=
              hgrant.mem hm₂.prune
            refine Runs.after (.single hgrant)
              ⟨(List.append_nil _).symm, (List.append_nil _).symm, rfl⟩ ?_
            split
            case isFalse hnil =>
              have hend : e₁.highQc.height + 1 ≤ c.cfg.endHeight := by
                rw [← hm₂.cfg]
                exact not_lt.1 (of_decide_eq_false (Bool.not_eq_true _ ▸ hnil))
              refine .ret (.single (.ask rfl)) (fun _ => .cons trivial (.cons ⟨⟨hm₃.high, ?_⟩,
                hm₃.accepted, fun t ht => (hm₃.entry t ht).2, hend⟩ .nil))
                ⟨(List.append_nil _).symm, (List.append_nil _).symm, rfl⟩
              exact fun t ht => (hm₃.entry t ht).1
            case isTrue hnil =>
              have hend : c.cfg.endHeight < e₁.highQc.height + 1 := by
                rw [← hm₂.cfg]
                exact of_decide_eq_true hnil
              apply Runs.scheduled
              refine .onProposed ih (Does.enterRound (carries_still c.H) n) hm₃
                ⟨fun _ => hm₃.high, fun t ht _ => (hm₃.entry t ht).1⟩
                (.inr ⟨hm₃.high, fun t ht => (hm₃.entry t ht).1⟩) rfl ?_
                (.inl hend)
              intro hle
              exact absurd hend (not_lt.2 hle)

end Boltchain.Consensus
