import Boltchain.Consensus.RefineRounds

namespace Boltchain.Consensus

open Lib.Assoc

variable {S : Scheme} {c : Ctx S} {K : Knowledge} {e e' : Engine S} {g : Ghost S}

variable {b : BlockInfo}

theorem Runs.onBlock (hm : Mem c K e) (hb : c.Known b) :
    Runs c K e g (e.onBlock b) := by
  have hscratch : Micro c K (e, g) ({ e with requested := e.requested.filter (· ≠ b.hash) }, g) :=
    .scratch e.timedOut _ e.consecutiveTimeouts
  have hsteps : Steps c K (e, g) ({ e with
      requested := e.requested.filter (· ≠ b.hash)
      blocks := if e.committed.height < b.height then put e.blocks b.hash b else e.blocks }, g) := by
    split
    case isTrue hlt => exact .tail (.single hscratch) (.fetched hb hlt)
    case isFalse => exact .single hscratch
  unfold Engine.onBlock
  dsimp only
  refine Runs.after hsteps (.refl g) ?_
  cases hq : e.blockedCommit with
  | none => exact .nothing
  | some q => exact .tryCommit (hq ▸ hsteps.mem hm) (hm.blocked q hq)

/-- The signer of `t` did not report a certificate of a later round before, among the timeouts of
its round that the engine has collected. -/
def Engine.NotLower (e : Engine S) (t : Timeout S) : Prop :=
  ∀ x ∈ e.timeouts, x.1 = t.round → ∀ y ∈ x.2.entries, y.1 = t.signer → y.2.1 ≤ t.highQc.round

variable {set : TimeoutSet S} {t : Timeout S}

theorem joinTimeout_max
    (h : set = ⟨[], t.highQc, false⟩ ∨ (∀ x ∈ set.entries, x.2.1 ≤ set.highQc.round) ∧
      ∃ x ∈ set.entries, x.2.1 = set.highQc.round)
    (hlow : ∀ y ∈ set.entries, y.1 = t.signer → y.2.1 ≤ t.highQc.round) :
    (∀ x ∈ (Engine.joinTimeout set t).entries, x.2.1 ≤ (Engine.joinTimeout set t).highQc.round) ∧
      ∃ x ∈ (Engine.joinTimeout set t).entries, x.2.1 = (Engine.joinTimeout set t).highQc.round := by
  have hnew : (t.signer, t.highQc.round, t.sig) ∈ (Engine.joinTimeout set t).entries := List.mem_cons_self
  have hround : (Engine.joinTimeout set t).highQc.round = max set.highQc.round t.highQc.round := by
    simp only [Engine.joinTimeout]
    split <;> omega
  rw [hround]
  rcases h with rfl | ⟨hle, x, hx, heq⟩
  · refine ⟨fun x hx => ?_, _, hnew, (max_self _).symm⟩
    cases List.mem_singleton.1 hx
    exact le_max_right _ _
  · refine ⟨fun y hy => ?_, ?_⟩
    · rcases mem_put hy with rfl | hy
      · exact le_max_right _ _
      · exact (hle y hy).trans (le_max_left _ _)
    · by_cases hlt : set.highQc.round < t.highQc.round
      · exact ⟨_, hnew, (max_eq_right hlt.le).symm⟩
      · -- the highest report stays, or its signer reports as high again
        by_cases hs : x.1 = t.signer
        · have hle := hlow x hx hs
          refine ⟨_, hnew, show t.highQc.round = _ from ?_⟩
          omega
        · refine ⟨x, List.mem_cons_of_mem _ (List.mem_filter.2 ⟨hx, decide_eq_true hs⟩), ?_⟩
          rw [heq, max_eq_left (not_lt.1 hlt)]

theorem TimeoutSetOk.join
    (h : set = ⟨[], t.highQc, false⟩ ∨ TimeoutSetOk c K t.round set)
    (hlt : t.signer < c.cfg.validators.len) (hqc : QcOk c K t.highQc) (hacc : c.verifyQc t.highQc = true)
    (hround : t.highQc.round < t.round)
    (hverify : S.verify t.signer (.timeout c.cfg.chainId c.cfg.epoch t.round t.highQc.round) t.sig = true)
    (hsig : c.U.sig K t.sig)
    (hlow : c.ordered → ∀ y ∈ set.entries, y.1 = t.signer → y.2.1 ≤ t.highQc.round) :
    TimeoutSetOk c K t.round (Engine.joinTimeout set t) := by
  have hold : (keys set.entries).Nodup ∧ (∀ i ∈ keys set.entries, i < c.cfg.validators.len) ∧
      (∀ x ∈ set.entries, c.honest x.1 → (x.1, .timeout c.cfg.chainId c.cfg.epoch t.round x.2.1) ∈ K) ∧
      (∀ x ∈ set.entries, x.2.1 < t.round ∧
        S.verify x.1 (.timeout c.cfg.chainId c.cfg.epoch t.round x.2.1) x.2.2 = true) ∧
      QcOk c K set.highQc ∧ (c.complete → c.verifyQc set.highQc = true) := by
    rcases h with rfl | h
    · exact ⟨List.nodup_nil, by simp [keys], by simp, by simp, hqc, fun _ => hacc⟩
    · exact ⟨h.nodup, h.lt, h.entries, h.verified, h.highQc, h.accepted⟩
  obtain ⟨hnodup, hlen, hentries, hverified, hhigh, haccepted⟩ := hold
  have hall : ∀ {P : Nat × Nat × S.Sig → Prop}, P (t.signer, t.highQc.round, t.sig) →
      (∀ x ∈ set.entries, P x) → ∀ x ∈ (Engine.joinTimeout set t).entries, P x :=
    fun h0 h x hx => (mem_put hx).elim (fun heq => heq ▸ h0) (h x)
  have hjoined : QcOk c K (Engine.joinTimeout set t).highQc ∧
      (c.complete → c.verifyQc (Engine.joinTimeout set t).highQc = true) := by
    simp only [Engine.joinTimeout]
    split
    · exact ⟨hqc, fun _ => hacc⟩
    · exact ⟨hhigh, haccepted⟩
  refine ⟨nodup_keys_put hnodup, ?_, hall (c.U.of_verify hsig hverify) hentries,
    hall ⟨hround, hverify⟩ hverified, hjoined.1, hjoined.2, fun hc => ?_⟩
  · intro i hi
    rcases List.mem_cons.1 hi with rfl | hi
    · exact hlt
    · exact hlen i ((keys_del_sublist _ _).subset hi)
  · exact joinTimeout_max (h.imp id fun h => h.max hc) (hlow hc)

theorem TimeoutSetOk.tcOk {r : Nat} (h : TimeoutSetOk c K r set)
    (hq : c.cfg.validators.isQuorum (c.cfg.validators.weightOf (keys set.entries)) = true) :
    TcOk c K (⟨c.cfg.epoch, r, set.highQc, set.entries.insertionSort fun a b => a.1 ≤ b.1⟩ : Tc S) := by
  set tc : Tc S := ⟨c.cfg.epoch, r, set.highQc, set.entries.insertionSort fun a b => a.1 ≤ b.1⟩ with htc
  have hperm : tc.entries.Perm set.entries := List.perm_insertionSort _ _
  have hkeys : (tc.entries.map (·.1)).Perm (keys set.entries) := hperm.map _
  refine ⟨h.highQc, fun hs => ?_, fun x hx hh => h.entries x (hperm.mem_iff.1 hx) hh, fun hc ho => ?_⟩
  · refine Backed.of_nodup _ _ (c.weight_lt hs) h.nodup h.lt hq fun i hi hh => ?_
    obtain ⟨x, hx, rfl⟩ := List.mem_map.1 hi
    exact ⟨x.2.1, Tc.le_maxQcRound (hperm.mem_iff.2 hx), h.entries x hx hh⟩
  · have hdedup : (tc.entries.map (·.1)).dedup = tc.entries.map (·.1) :=
      (hkeys.nodup_iff.2 h.nodup).dedup
    have hweight : c.cfg.validators.weightOf (tc.entries.map (·.1)) =
        c.cfg.validators.weightOf (keys set.entries) := (hkeys.map _).sum_eq
    obtain ⟨hle, x, hx, heq⟩ := h.max ho
    have hmax : tc.highQc.round = tc.maxQcRound :=
      le_antisymm (heq ▸ Tc.le_maxQcRound (hperm.mem_iff.2 hx))
        (Tc.maxQcRound_le fun y hy => hle y (hperm.mem_iff.1 hy))
    simp only [Ctx.verifyTc, Tc.verify, hdedup, hweight, hq, hmax, Bool.and_eq_true, beq_iff_eq,
      List.length_map, List.all_eq_true, decide_eq_true_eq, and_true]
    refine ⟨⟨⟨rfl, fun i hi => h.lt i (hkeys.mem_iff.1 hi)⟩, fun y hy => ?_⟩, h.accepted hc⟩
    exact h.verified y (hperm.mem_iff.1 hy)

section

variable {enter : Nat → Option (Tc S) → Engine S → Outcome S} (henter : Enters c K enter)
  (hq : ∀ r tc (e : Engine S), e.round < r → Does Still e (enter r tc e)) {join : Engine S → Outcome S}
  (hjoin : ∀ e g, Mem c K e → Runs c K e g (join e))

include henter hq hjoin

theorem Runs.onTimeoutMsg {t : Timeout S} (hm : Mem c K e) (hin : CertsIn c K t.highQc t.lastTc)
    (hsig : c.U.sig K t.sig) (hlow : c.ordered → e.NotLower t) :
    Runs c K e g (Engine.onTimeoutMsg enter join t e) := by
  unfold Engine.onTimeoutMsg
  split
  case isTrue => exact .nothing
  case isFalse hcheck =>
    simp only [Engine.checkTimeout, Engine.verifyQc, Engine.timeoutMsg, hm.cfg, Bool.not_eq_true',
      Bool.not_eq_false, Bool.and_eq_true, decide_eq_true_eq] at hcheck
    obtain ⟨⟨⟨⟨⟨-, hlt⟩, -⟩, hround⟩, hverify⟩, hacc⟩ := hcheck
    have hqc := hin.qc hacc
    apply Runs.bind
    · split
      case h_1 _ tc htc =>
        split
        case isTrue hcond =>
          rw [Engine.verifyTc, hm.cfg] at hcond
          exact .processTc henter hm (hin.tc tc htc hcond.2.2)
        case isFalse => exact .nothing
      case h_2 => exact .nothing
    · intro e₁ g₁ _ _ heq₁ hs₁
      have hm₁ : Mem c K e₁ := hs₁.mem hm
      have ht₁ : e₁.timeouts ⊆ e.timeouts := by
        split at heq₁
        · split at heq₁
          · exact (Quiet.of_still (Does.processTc (carries_still c.H) hq) _ _ heq₁).2
          · cases heq₁
            exact List.Subset.refl _
        · cases heq₁
          exact List.Subset.refl _
      refine Runs.step (.recordQc hqc) ((Runs.processQc_recorded henter hm₁ hqc).bind ?_)
      intro e₂ g₂ _ _ heq₂ hs₂
      have hm₂ : Mem c K e₂ := hs₂.mem (hm₁.recordQc hqc)
      have ht₂ : e₂.timeouts ⊆ e.timeouts := List.Subset.trans (Quiet.of_still (Does.processQc (carries_still c.H) hq) _ _ heq₂).2 ht₁
      have hhigh : t.highQc.round ≤ e₂.highQc.round := by
        refine le_trans ?_ hs₂.grows.high
        simp only [Engine.recordQc]
        split <;> omega
      set old := (e₂.timeouts.lookup t.round).getD ⟨[], t.highQc, false⟩ with hold
      -- the collected timeouts were there before the call
      have hfrom : old = ⟨[], t.highQc, false⟩ ∨ (t.round, old) ∈ e₂.timeouts := by
        cases hlook : e₂.timeouts.lookup t.round with
        | none => exact .inl (by rw [hold, hlook, Option.getD_none])
        | some set => exact .inr (by rw [hold, hlook]; exact mem_of_lookup hlook)
      have hset : TimeoutSetOk c K t.round (Engine.joinTimeout old t) := by
        refine .join (hfrom.imp id fun h => (hm₂.timeouts _ h).1) hlt hqc hacc hround hverify hsig ?_
        intro hc y hy hys
        rcases hfrom with heq | hmem
        · rw [heq] at hy
          cases hy
        · exact hlow hc _ (ht₂ hmem) rfl y hy hys
      have hle : ∀ x ∈ (Engine.joinTimeout old t).entries, x.2.1 ≤ e₂.highQc.round := by
        intro x hx
        rcases mem_put hx with rfl | hx
        · exact hhigh
        · rcases hfrom with heq | hmem
          · rw [heq] at hx
            cases hx
          · exact (hm₂.timeouts _ hmem).2 x hx
      dsimp only
      split
      case isTrue => exact .nothing
      case isFalse =>
        split
        case isTrue hquorum =>
          rw [hm₂.cfg] at hquorum
          have hdone : Micro c K (e₂, g₂) ({ e₂ with
              timeouts := put e₂.timeouts t.round { Engine.joinTimeout old t with done := true } }, g₂) :=
            .timeouts { hset with } hle
          refine .step hdone (.processTc henter (hdone.mem hm₂) ?_)
          rw [hm₂.cfg]
          exact hset.tcOk hquorum
        case isFalse =>
          have hput : Micro c K (e₂, g₂)
              ({ e₂ with timeouts := put e₂.timeouts t.round (Engine.joinTimeout old t) }, g₂) :=
            .timeouts hset hle
          apply Runs.step hput
          split
          · exact hjoin _ _ (hput.mem hm₂)
          · exact .nothing

theorem Runs.timeoutAll {round q : Nat} {l : List Nat} (hm : Mem c K e) (hquit : (round, q) ∈ g.quits)
    (hl : ∀ i ∈ l, i ∈ c.cfg.me) : Runs c K e g (Engine.timeoutAll enter join round q l e) := by
  induction l generalizing e g with
  | nil => exact .nothing
  | cons me l ih =>
    have hmsg : e.timeoutMsg round q = .timeout c.cfg.chainId c.cfg.epoch round q := by
      rw [Engine.timeoutMsg, hm.cfg]
    have hsign : Micro c K (e, g) (e, { g with signed := g.signed ++ [(me, e.timeoutMsg round q)] }) := by
      rw [hmsg]
      exact .signTimeout (hl me List.mem_cons_self) hquit
    have hentry : ∀ t ∈ e.entryTc, TcOk c K t := fun t ht => (hm.entry t ht).1
    unfold Engine.timeoutAll
    dsimp only
    refine Runs.bind (Runs.ret (.single hsign)
      (fun _ => .cons trivial (.cons ⟨hm.high, hentry⟩ .nil)) ⟨rfl, (List.append_nil _).symm, rfl⟩) ?_
    rintro e₁ g₁ a ha ⟨⟩ hs₁
    have hsig : c.U.sig K (S.sign me (e.timeoutMsg round q)) := c.U.sign (ha _ (by simp [signs]))
    refine Runs.andThen (Runs.onTimeoutMsg henter hq hjoin hm
      ⟨fun _ => hm.high, fun t ht _ => hentry t ht⟩ hsig ?_) ?_
    · -- whatever was reported is no higher than the own certificate
      exact fun _ x hx _ y hy _ => (hm.timeouts x hx).2 y hy
    · intro e₂ g₂ hs₂
      split
      · exact .nothing
      · exact ih (hs₂.mem hm) ((Steps.grows (hs₁.trans hs₂)).quits hquit)
          fun i hi => hl i (List.mem_cons_of_mem _ hi)

end

theorem Runs.localTimeout {enter : Nat → Option (Tc S) → Engine S → Outcome S}
    (henter : Enters c K enter) (hq : ∀ r tc (e : Engine S), e.round < r → Does Still e (enter r tc e)) (n : Nat) (e : Engine S)
    (g : Ghost S) (hm : Mem c K e) : Runs c K e g (Engine.localTimeout enter n e) := by
  induction n generalizing e g with
  | zero => exact .diverges
  | succ n ih =>
    have hquit : Steps c K (e, g) ({ e with
        lastVoted := max e.lastVoted e.round, consecutiveTimeouts := e.consecutiveTimeouts + 1 },
        { g with quits := (e.round, e.highQc.round) :: g.quits }) :=
      .tail (.single .quit) (.scratch e.timedOut e.requested _)
    unfold Engine.localTimeout
    dsimp only
    refine Runs.after hquit ⟨(List.append_nil _).symm, (List.append_nil _).symm, rfl⟩ ?_
    split
    case isTrue =>
      exact .ret .refl (fun _ => .cons trivial .nil)
        ⟨(List.append_nil _).symm, (List.append_nil _).symm, rfl⟩
    case isFalse =>
      refine Runs.step (.scratch _ e.requested _) (Runs.scheduled ?_)
      refine .timeoutAll henter hq ih { hquit.mem hm with } List.mem_cons_self ?_
      rw [hm.cfg]
      exact fun i hi => hi

/-- What is taken of an input: the places of blocks, the blocks the node passes, the height of a
vote, and that a timeout reports no lower than before. -/
def Ctx.Admits (c : Ctx S) (e : Engine S) : Event S → Prop
  | .message (.proposal p) => e.Stores c.H p → c.stored p.block
  | .message (.vote v) => c.placed v.block v.height
  | .message (.timeout t) => c.ordered → e.NotLower t
  | .validated h ok => ok = true → ∀ p, e.pending.lookup h = some p →
      c.cfg.endHeight < p.block.height ∨ c.valid p.block
  | .proposed b _ _ _ => (b.height ≤ c.cfg.endHeight → c.stored b) ∧
      (c.cfg.endHeight < b.height ∨ c.valid b)
  | .block b => c.Known b
  | .externalCommit b _ => c.imports ∧ c.Known b
  | _ => True

def Event.answers : Event S → Option Nat
  | .proposed b _ _ _ => some b.round
  | _ => none

/-- The input answers a `Propose` of one of the rounds `asked`, with good certificates. -/
def Ctx.Answers (c : Ctx S) (K : Knowledge) (asked : List Nat) : Event S → Prop
  | .proposed b qc tc _ => b.round ∈ asked ∧ CertsOk c K qc tc
  | _ => True

/-- The certificates of an input, if they verify, come under the heights of their blocks. -/
def Ctx.Levels (c : Ctx S) (ev : Event S) : Prop :=
  ∀ qc ∈ ev.qcs, c.verifyQc qc = true → c.placed qc.block qc.height

variable {qc : Qc S}

theorem certsIn_of_clean {tc : Option (Tc S)}
    (hU : ∀ q ∈ qc :: tc.toList.map (·.highQc), c.U.ofQc K q)
    (hc : c.strict → ∀ q ∈ qc :: tc.toList.map (·.highQc), q.Clean)
    (hp : ∀ q ∈ qc :: tc.toList.map (·.highQc), c.verifyQc q = true → c.placed q.block q.height)
    (hs : ∀ s ∈ Proposal.tcSigs tc, c.U.sig K s) : CertsIn c K qc tc := by
  have hqc : ∀ q ∈ qc :: tc.toList.map (·.highQc), c.verifyQc q = true → QcOk c K q :=
    fun q hq hv => .of_verify (fun hst => hc hst q hq) (hU q hq) (hp q hq hv) hv
  refine ⟨hqc _ List.mem_cons_self, ?_⟩
  rintro t ⟨⟩
  refine TcOk.of_verify (hqc _ (by simp)) fun x hx => hs _ ?_
  simp only [Proposal.tcSigs, Option.toList_some, List.flatMap_cons, List.flatMap_nil, List.append_nil]
  exact List.mem_map_of_mem hx

variable {n : Nat}

theorem Runs.onMessage {m : Message S} (hm : Mem c K e) (hU : c.U.ofEvent K (.message m))
    (hc : c.strict → ∀ qc ∈ m.qcs, qc.Clean) (hp : c.Levels (.message m))
    (hadm : c.Admits e (.message m)) : Runs c K e g (e.onMessage c.H n m) := by
  have henter := Runs.enterRound (c := c) (K := K) n
  have hq := Does.enterRound (S := S) (carries_still c.H) n
  unfold Engine.onMessage
  split
  case isTrue => exact .nothing
  case isFalse =>
    cases m with
    | proposal p =>
      exact .onProposal henter hm
        (certsIn_of_clean hU.1 hc hp fun s hs => hU.2 s (List.mem_cons_of_mem _ hs)) hadm
    | vote v => exact .onVote henter hm (hU.2 _ List.mem_cons_self) hadm
    | timeout t =>
      exact .onTimeoutMsg henter hq (Runs.localTimeout henter hq n) hm
        (certsIn_of_clean hU.1 hc hp fun s hs => hU.2 s (List.mem_cons_of_mem _ hs))
        (hU.2 _ List.mem_cons_self) hadm

theorem Runs.onExternalCommit (hm : Mem c K e)
    (hU : c.U.ofQc K qc) (hc : c.strict → qc.Clean)
    (hp : c.verifyQc qc = true → c.placed qc.block qc.height) (hx : c.imports) (hb : c.Known b) :
    Runs c K e g (e.onExternalCommit c.H n b qc) := by
  unfold Engine.onExternalCommit
  split
  case isTrue => exact .nothing
  case isFalse hcond =>
    simp only [not_or, not_le, Bool.not_eq_false, Engine.verifyQc, hm.cfg] at hcond
    have hext : Micro c K (e, g) ({ e with blocks := put e.blocks b.hash b, committed := b }, g) :=
      .external hx hb hcond.1
    exact .step hext (.processQc (Runs.enterRound n) (hext.mem hm)
      (QcOk.of_verify hc hU (hp hcond.2.1) hcond.2.1))

/-- An input takes the engine through the allowed updates only, and they account for every
signature, every committed block and every `Propose`. -/
theorem Engine.on_steps {ev : Event S} {l : List (Effect S)} (hm : Mem c K e)
    (hU : c.U.ofEvent K ev) (hc : c.strict → ∀ qc ∈ ev.qcs, qc.Clean) (hp : c.Levels ev)
    (hadm : c.Admits e ev)
    (hask : c.unasked ∨ c.Answers K g.asked ev)
    (heq : e.on c.H n ev = some (e', l)) (hK : ∀ x ∈ signs l, x ∈ K) :
    Says c K l ∧ (l.any Effect.ends = true → e'.finished = true) ∧
      ∃ g', Steps c K (e, g) (e', g') ∧ g'.signed = g.signed ++ signs l ∧
        g'.emitted = g.emitted ++ commits l ∧
        ∀ r, r ∈ asks l ∨ r ∈ g.asked ∧ ev.answers ≠ some r → r ∈ g'.asked := by
  have henter := Runs.enterRound (c := c) (K := K) n
  have hdone : Runs c K e g (e.on c.H n ev) → Says c K l ∧ (l.any Effect.ends = true → e'.finished = true) ∧
      ∃ g', Steps c K (e, g) (e', g') ∧ g'.signed = g.signed ++ signs l ∧
        g'.emitted = g.emitted ++ commits l ∧
        ∀ r, r ∈ asks l ∨ r ∈ g.asked ∧ ev.answers ≠ some r → r ∈ g'.asked := by
    intro hruns
    obtain ⟨hl, hend, g', hs, hr⟩ := hruns e' l heq hK
    refine ⟨hl, hend, g', hs, hr.signed, hr.emitted, fun r h => ?_⟩
    rw [hr.asked, List.mem_append, List.mem_reverse]
    exact h.imp id And.left
  cases ev with
  | start =>
    refine hdone (henter _ _ _ _ hm ?_)
    rintro t ⟨⟩
  | message m => exact hdone (.onMessage hm hU hc hp hadm)
  | validated h ok => exact hdone (.onValidated henter hm hadm)
  | proposed b qc tc payload =>
    by_cases hround : b.round = e.round
    · have hanswer : Micro c K (e, g)
          (e, { g with asked := g.asked.filter (· ≠ e.round), fresh := true }) :=
        .answer (hask.imp id fun h => hround ▸ h.1)
      have hfresh : ({ g with asked := g.asked.filter (· ≠ e.round), fresh := true } : Ghost S).fresh = true :=
        rfl
      obtain ⟨hl, hend, g', hs, hr⟩ := Runs.onProposed henter (Does.enterRound (carries_still c.H) n) hm
        (certsIn_of_clean hU.1 hc hp hU.2) (hask.imp id And.right) hfresh hadm.1 hadm.2 e' l heq hK
      refine ⟨hl, hend, g', .head hanswer hs, hr.signed, hr.emitted, fun r h => ?_⟩
      rw [hr.asked, List.mem_append, List.mem_reverse, List.mem_filter]
      refine h.imp id fun h => ⟨h.1, decide_eq_true ?_⟩
      rintro rfl
      exact h.2 (congrArg some hround)
    · have hnothing : e.on c.H n (.proposed b qc tc payload) = some (e, []) := if_pos (.inl hround)
      exact hdone (hnothing ▸ .nothing)
  | timeout r =>
    refine hdone ?_
    simp only [Engine.on, Engine.onTimeout]
    split
    · exact .nothing
    · exact .localTimeout henter (Does.enterRound (carries_still c.H) n) n e g hm
  | block b => exact hdone (.onBlock hm hadm)
  | externalCommit b qc =>
    exact hdone (.onExternalCommit hm (hU.1 _ List.mem_cons_self) (fun hs => hc hs _ List.mem_cons_self)
      (hp _ List.mem_cons_self) hadm.1 hadm.2)

end Boltchain.Consensus
