import Boltchain.Consensus.Calls

namespace Boltchain.Consensus

open Lib.Assoc

variable {S : Scheme}

/-- A signature, or an action that hands out or asks for something signed. -/
def Effect.speaks : Effect S → Bool
  | .sign _ _ _ => true
  | .act (.broadcast _) => true
  | .act (.sendTo _ _) => true
  | .act (.propose _ _ _) => true
  | _ => false

def Closes (l : List (Effect S)) : Prop := l.Pairwise fun a b => a.ends = true → b.speaks = false

/-- The engine is through with `r`: it left the round, or gave up on it. -/
def Engine.Past (e : Engine S) (r : Nat) : Prop := r < e.round ∨ r = e.round ∧ r ∈ e.timedOut

def Engine.Light (e : Engine S) (t : Timeout S) : Prop :=
  e.cfg.validators.isOneThird (e.cfg.validators.weightOf [t.signer]) = false ∧
    ∀ set, (t.round, set) ∈ e.timeouts →
      e.cfg.validators.isOneThird (e.cfg.validators.weightOf (keys (joinTimeout set t).entries)) = false

/-- How a call from `e` to `e'` treats the end of the epoch. -/
structure Ends (e e' : Engine S) (l : List (Effect S)) : Prop where
  cfg : e'.cfg = e.cfg
  past : ∀ r, e.Past r → e'.Past r
  closes : Closes l
  finished : l.any Effect.ends = true → e'.finished = true
  mute : e.finished = true → e'.finished = true ∧ ∀ b ∈ l, b.speaks = false

def EndsIn (e : Engine S) (o : Outcome S) : Prop := ∀ e' l, o = some (e', l) → Ends e e' l

variable {e e' e₁ : Engine S} {l : List (Effect S)}

theorem closes_of_silent (h : ∀ b ∈ l, b.speaks = false) : Closes l :=
  List.pairwise_of_forall_mem_list fun _ _ b hb _ => h b hb

theorem closes_of_running (h : l.any Effect.ends = false) : Closes l :=
  List.pairwise_of_forall_mem_list fun a ha _ _ hends =>
    absurd (List.any_eq_true.2 ⟨a, ha, hends⟩) (by simp [h])

theorem Ends.trans {l' : List (Effect S)} (h : Ends e e₁ l) (h' : Ends e₁ e' l') : Ends e e' (l ++ l') where
  cfg := h'.cfg.trans h.cfg
  past r hr := h'.past r (h.past r hr)
  closes := by
    refine List.pairwise_append.2 ⟨h.closes, h'.closes, fun a ha b hb hends => ?_⟩
    exact (h'.mute (h.finished (List.any_eq_true.2 ⟨a, ha, hends⟩))).2 b hb
  finished hany := by
    rw [List.any_append, Bool.or_eq_true] at hany
    exact hany.elim (fun hl => (h'.mute (h.finished hl)).1) h'.finished
  mute hf := by
    obtain ⟨hf₁, hl⟩ := h.mute hf
    obtain ⟨hf', hl'⟩ := h'.mute hf₁
    exact ⟨hf', fun b hb => (List.mem_append.1 hb).elim (hl b) (hl' b)⟩

theorem ends_of_frame (hcfg : e'.cfg = e.cfg) (hpast : ∀ r, e.Past r → e'.Past r)
    (hfin : e.finished = true → e'.finished = true) (hl : l.any Effect.ends = false)
    (hmute : e.finished = true → ∀ b ∈ l, b.speaks = false) : Ends e e' l :=
  ⟨hcfg, hpast, closes_of_running hl, fun h => by simp [hl] at h, fun hf => ⟨hfin hf, hmute hf⟩⟩

theorem Engine.Settling.closes (h : e.Settling e' l) : Ends e e' l := by
  have hsilent : ∀ b ∈ l, b.speaks = false := by
    intro b hb
    cases h.settles b hb <;> rfl
  refine ⟨h.frame.cfg, ?_, closes_of_silent hsilent, h.ends, fun hf => ⟨?_, hsilent⟩⟩
  · obtain ⟨_, _, _, _, rfl⟩ := h.frame
    exact fun _ h => h
  · rw [(h.idle hf).1]
    exact hf

theorem Ends.of_recorded {qc : Qc S} (h : Ends (e.recordQc qc) e' l) : Ends e e' l :=
  ⟨h.cfg, h.past, h.closes, h.finished, h.mute⟩

theorem ends_opens {r : Nat} (h : Opens r e e' l) : Ends e e' l := by
  have hpast : ∀ x, e.Past x → e.prune.Past x := by
    intro x hx
    obtain hlt | ⟨heq, hx⟩ := hx
    · exact .inl hlt
    · refine .inr ⟨heq, List.mem_filter.2 ⟨hx, ?_⟩⟩
      rw [decide_eq_true_eq]
      omega
  cases h with
  | finished => exact ends_of_frame rfl (fun _ h => h) id rfl (by simp)
  | waits hf => exact ends_of_frame rfl hpast id rfl (by simp [hf])
  | proposes hf => exact ends_of_frame rfl hpast id rfl (by simp [hf])
  | asks hf => exact ends_of_frame rfl hpast id rfl (by simp [hf])

/-- An engine of a single seat treats the end of the epoch well. -/
def Alone : Rel S := fun e e' l => e.cfg.me.length ≤ 1 → Ends e e' l

theorem carries_alone (H : Hasher) : Carries H (fun _ => True) (fun _ => True) (Alone (S := S)) (fun _ => Alone) where
  nothing _ := ends_of_frame rfl (fun _ h => h) id rfl (by simp)
  trans h h' hme := (h hme).trans (h' ((h hme).cfg ▸ hme))
  erase _ h hme := by
    have hends := h hme
    refine ⟨hends.cfg, hends.past, hends.closes.sublist List.eraseP_sublist, fun hany => hends.finished ?_,
      fun hf => ⟨(hends.mute hf).1, fun b hb => (hends.mute hf).2 b (List.mem_of_mem_eraseP hb)⟩⟩
    obtain ⟨x, hx, hx'⟩ := List.any_eq_true.1 hany
    exact List.any_eq_true.2 ⟨x, List.mem_of_mem_eraseP hx, hx'⟩
  stay hcommit _ _ := (Engine.settling_tryCommit hcommit).closes.of_recorded
  leave hcommit _ henter hme := by
    have hcommits := (Engine.settling_tryCommit hcommit).closes.of_recorded
    have hends := henter (hcommits.cfg ▸ hme)
    exact hcommits.trans ⟨hends.cfg, hends.past, hends.closes, hends.finished, hends.mute⟩
  enter _ h := h
  opens {e _ _ r tc _ _} hr hretry hopens _ := by
    have hentered : Ends e (e.entered r tc) [] := by
      refine ends_of_frame rfl (fun x hx => .inl ?_) id rfl (by simp)
      show x < r
      obtain hx | ⟨rfl, -⟩ := hx <;> omega
    exact hentered.trans ((Engine.settling_retryCommit hretry).closes.trans (ends_opens hopens))
  follow h h' hme := (h hme).trans (h' ((h hme).cfg ▸ hme))
  insert _ _ _ _ := ends_of_frame rfl (fun _ h => h) id rfl (by simp)
  count _ _ _ _ := ends_of_frame rfl (fun _ h => h) id rfl (by simp)
  pend _ _ _ := ends_of_frame rfl (fun _ h => h) id rfl (by simp)
  validate _ _ := ends_of_frame rfl (fun _ h => h) id rfl (by simp [Effect.speaks])
  utter hrun hl hme := by
    have hends : ∀ x ∈ _, Effect.ends x = false := fun x hx => by cases hl x hx <;> rfl
    refine ends_of_frame rfl (fun _ h => h) id (by simpa using hends) fun hf => ?_
    simp [hf] at hrun
    omega

namespace EndsIn

theorem nothing : EndsIn e (some (e, [])) := by
  rintro e' l ⟨⟩
  exact ends_of_frame rfl (fun _ h => h) id rfl (by simp)

theorem bind {o : Outcome S} {f : Engine S → Outcome S} (ho : EndsIn e o)
    (hf : ∀ e₁ a, o = some (e₁, a) → Ends e e₁ a → EndsIn e₁ (f e₁)) : EndsIn e (o.andThen f) := by
  intro e' l heq
  obtain ⟨e₁, a, b, ho', hf', rfl⟩ := Outcome.andThen_eq_some heq
  have h := ho e₁ a ho'
  exact h.trans (hf e₁ a ho' h e' b hf')

theorem of_frame {o : Outcome S} (h : EndsIn e₁ o) (hcfg : e₁.cfg = e.cfg) (hpast : ∀ r, e.Past r → e₁.Past r)
    (hfin : e.finished = e₁.finished) : EndsIn e o := by
  intro e' l heq
  have hends := h e' l heq
  exact ⟨hends.cfg.trans hcfg, fun r hr => hends.past r (hpast r hr), hends.closes, hends.finished,
    fun hf => hends.mute (hfin ▸ hf)⟩

theorem of_alone {o : Outcome S} (h : Does Alone e o) (hme : e.cfg.me.length ≤ 1) : EndsIn e o :=
  fun e' l heq => (h e' l heq).2 hme

section

variable (H : Hasher) {n : Nat} {t : Timeout S}

/-- A timeout that does not make the engine give up, or an engine that says nothing when it does. -/
theorem onTimeoutMsg {join : Engine S → Outcome S} (hme : e.cfg.me.length ≤ 1)
    (hjoin : (∀ e₁ : Engine S, e₁.cfg = e.cfg → EndsIn e₁ (join e₁)) ∨ e.Past t.round ∨ e.Light t) :
    EndsIn e (Engine.onTimeoutMsg (Engine.enterRound H n) join t e) := by
  have hC := carries_alone (S := S) H
  have henter := Does.enterRound hC n
  have hq := Does.enterRound (carries_still (S := S) H) n
  rw [Engine.onTimeoutMsg_eq]
  split
  case isTrue => exact nothing
  case isFalse =>
    apply (of_alone (Does.processLastTc hC henter) hme).bind
    intro e₁ a heq₁ h₁
    have hsub₁ := (Quiet.of_still (Does.processLastTc (carries_still H) hq) _ _ heq₁).2
    apply (of_alone (Does.processQc hC henter) (h₁.cfg ▸ hme)).bind
    intro e₂ b heq₂ h₂
    have hsub₂ := (Quiet.of_still (Does.processQc (carries_still H) hq) _ _ heq₂).2
    have hcfg : e₂.cfg = e.cfg := h₂.cfg.trans h₁.cfg
    unfold Engine.joinRound
    split
    case isTrue => exact nothing
    case isFalse =>
      split
      case h_1 => exact of_frame (of_alone (Does.processTc hC henter) (hcfg ▸ hme)) rfl (fun _ h => h) rfl
      case h_2 =>
        split
        case isFalse => exact of_frame nothing rfl (fun _ h => h) rfl
        case isTrue hcond =>
          simp only [Engine.joinsIn, Bool.and_eq_true, beq_iff_eq, Bool.not_eq_true', List.contains_eq_mem,
            decide_eq_false_iff_not] at hcond
          obtain ⟨⟨hthird, hround⟩, hnot⟩ := hcond
          obtain hjoin | hpast | hlight := hjoin
          · exact of_frame (hjoin _ hcfg) rfl (fun _ h => h) rfl
          · obtain hlt | ⟨-, hmem⟩ := h₂.past _ (h₁.past _ hpast)
            · exact absurd hround hlt.ne
            · exact absurd hmem hnot
          · -- the timeouts kept for the round are some of those kept before the call
            have hfalse : e₂.cfg.validators.isOneThird (e₂.cfg.validators.weightOf
                (keys (Engine.joinTimeout (e₂.timeoutSet t) t).entries)) = false := by
              rw [hcfg, Engine.timeoutSet]
              cases hset : e₂.timeouts.lookup t.round with
              | none => exact hlight.1
              | some set => exact hlight.2 set (hsub₁ (hsub₂ (mem_of_lookup hset)))
            rw [hfalse] at hthird
            cases hthird

/-- A single seat that gives up signs once, and joins nothing afterwards. -/
theorem localTimeout {k : Nat} (hme : e.cfg.me.length ≤ 1) (hrun : e.finished = true → e.cfg.me = []) :
    EndsIn e (Engine.localTimeout (Engine.enterRound H n) k e) := by
  cases k with
  | zero => rintro _ _ ⟨⟩
  | succ k =>
    unfold Engine.localTimeout
    dsimp only
    split
    case isTrue =>
      rintro e' l ⟨⟩
      exact ends_of_frame rfl (fun _ h => h) id rfl (by simp [Effect.speaks])
    case isFalse hne =>
      have hfin : e.finished = false := by
        by_contra hf
        simp [hrun (by simpa using hf)] at hne
      have hmem : ∀ r ∈ e.round :: e.timedOut, r ∈ e.givingUp.timedOut := by
        intro r hr
        unfold Engine.givingUp
        split
        case isTrue h =>
          obtain rfl | hr := List.mem_cons.1 hr
          · simpa using h
          · exact hr
        case isFalse => exact hr
      have hpast : ∀ r, e.Past r → e.givingUp.Past r := by
        intro r hr
        obtain hlt | ⟨heq, hr⟩ := hr
        · exact .inl hlt
        · exact .inr ⟨heq, hmem r (List.mem_cons_of_mem _ hr)⟩
      have hseats : ∃ me, e.cfg.me = [me] := by
        rw [← List.length_eq_one_iff]
        have := List.length_pos_iff.2 (by simpa using hne)
        omega
      obtain ⟨me, hseats⟩ := hseats
      refine bind (e := e) ?_ ?_
      · rintro e' l ⟨⟩
        exact ends_of_frame rfl hpast id rfl (by simp [Effect.speaks])
      · rintro e₁ a ⟨⟩ -
        rw [hseats]
        unfold Engine.timeoutAll
        dsimp only
        refine bind (e := e.givingUp) ?_ ?_
        · rintro e' l ⟨⟩
          exact ends_of_frame rfl (fun _ h => h) id rfl fun hf => absurd hf (by simp [Engine.givingUp, hfin])
        · rintro e₂ a ⟨⟩ -
          have hjoined : e.givingUp.Past e.round := .inr ⟨rfl, hmem _ List.mem_cons_self⟩
          refine (onTimeoutMsg (e := e.givingUp) H hme (.inr (.inl hjoined))).bind fun e₃ _ _ _ => ?_
          split
          · exact nothing
          · exact nothing

end

end EndsIn

/-- A timeout from outside does not make the engine give up on its round. -/
def Engine.Stays (e : Engine S) (ev : Event S) : Prop :=
  ∀ t, ev = .message (.timeout t) → e.cfg.me = [] ∨ e.Past t.round ∨ e.Light t

/-- An engine of a single seat closes in every call that does not make it give up on a round. -/
theorem Engine.on_endsIn {H : Hasher} {n : Nat} {ev : Event S} (hme : e.cfg.me.length ≤ 1) (h : e.Stays ev) :
    EndsIn e (e.on H n ev) := by
  have hC := carries_alone (S := S) H
  have henter := Does.enterRound hC n
  cases ev with
  | start => exact .of_alone (henter _ _ _ (Nat.lt_succ_self _)) hme
  | message m =>
    simp only [Engine.on, Engine.onMessage]
    split
    case isTrue => exact .nothing
    case isFalse =>
      cases m with
      | proposal p => exact .of_alone (Does.onProposal hC henter (fun _ => trivial) fun _ => trivial) hme
      | vote v => exact .of_alone (Does.onVote hC henter) hme
      | timeout t =>
        refine .onTimeoutMsg H hme ((h t rfl).imp_left fun hnone e₁ hcfg => ?_)
        exact .localTimeout H (hcfg ▸ hme) fun _ => hcfg ▸ hnone
  | validated b ok => exact .of_alone (Does.onValidated hC henter) hme
  | proposed b qc tc payload =>
    exact .of_alone (Does.onProposed hC henter (fun _ => trivial) fun _ => trivial) hme
  | timeout r =>
    simp only [Engine.on, Engine.onTimeout]
    split
    case isTrue => exact .nothing
    case isFalse hcond =>
      rw [not_or, Bool.not_eq_true] at hcond
      exact .localTimeout H hme (by simp [hcond.2])
  | block b =>
    have hretry : EndsIn (e.fetched b) (e.fetched b).retryCommit :=
      fun _ _ heq => (Engine.settling_retryCommit heq).closes
    exact hretry.of_frame rfl (fun _ h => h) rfl
  | externalCommit b qc =>
    simp only [Engine.on, Engine.onExternalCommit]
    split
    · exact .nothing
    · exact .of_frame (.of_alone (Does.processQc hC henter) hme) rfl (fun _ h => h) rfl

theorem Engine.Settling.finished (h : e.Settling e' l) (hf : e.finished = true) : e'.finished = true ∧ l = [] := by
  obtain ⟨rfl, rfl⟩ := h.idle hf
  exact ⟨hf, rfl⟩

theorem enterRound_finished {H : Hasher} {n r : Nat} {tc : Option (Tc S)}
    (heq : Engine.enterRound H n r tc e = some (e', l)) (hf : e.finished = true) :
    e'.finished = true ∧ l = [] := by
  cases n with
  | zero => cases heq
  | succ n =>
    rw [Engine.enterRound_succ] at heq
    split at heq
    case isTrue =>
      cases heq
      exact ⟨hf, rfl⟩
    case isFalse =>
      obtain ⟨e₁, a, b, hretry, hrest, rfl⟩ := Outcome.andThen_eq_some heq
      obtain ⟨hf₁, rfl⟩ := (Engine.settling_retryCommit hretry).finished hf
      rw [if_pos hf₁] at hrest
      cases hrest
      exact ⟨hf₁, rfl⟩

theorem processQc_finished {H : Hasher} {n : Nat} {qc : Qc S}
    (heq : Engine.processQc (Engine.enterRound H n) qc e = some (e', l)) (hf : e.finished = true) :
    e'.finished = true ∧ l = [] := by
  obtain ⟨e₁, a, b, hcommit, hrest, rfl⟩ := Outcome.andThen_eq_some heq
  obtain ⟨hf₁, rfl⟩ := (Engine.settling_tryCommit hcommit).finished hf
  split at hrest
  · exact enterRound_finished hrest hf₁
  · cases hrest
    exact ⟨hf₁, rfl⟩

/-- A finished engine stays finished and does nothing, whatever comes. -/
theorem Engine.on_finished {H : Hasher} {n : Nat} {ev : Event S} (hf : e.finished = true)
    (hon : e.on H n ev = some (e', l)) : e'.finished = true ∧ l = [] := by
  cases ev with
  | start => exact enterRound_finished hon hf
  | message m =>
    simp only [Engine.on, Engine.onMessage] at hon
    rw [if_pos (.inr hf)] at hon
    cases hon
    exact ⟨hf, rfl⟩
  | validated b ok =>
    simp only [Engine.on, Engine.onValidated] at hon
    split at hon
    · cases hon
      exact ⟨hf, rfl⟩
    · split at hon
      · cases hon
        exact ⟨hf, rfl⟩
      · rw [if_pos (.inr (.inr (.inr hf)))] at hon
        cases hon
        exact ⟨hf, rfl⟩
  | proposed b qc tc payload =>
    simp only [Engine.on, Engine.onProposed] at hon
    rw [if_pos (.inr (.inr hf))] at hon
    cases hon
    exact ⟨hf, rfl⟩
  | timeout r =>
    rw [Engine.on, Engine.onTimeout, if_pos (.inr hf)] at hon
    cases hon
    exact ⟨hf, rfl⟩
  | block b => exact (Engine.settling_retryCommit (e := e.fetched b) hon).finished hf
  | externalCommit b qc =>
    simp only [Engine.on, Engine.onExternalCommit] at hon
    split at hon
    · cases hon
      exact ⟨hf, rfl⟩
    · exact processQc_finished hon hf

section

variable {H : Hasher} {cfg : Config}

def Ground.below (H : Hasher) (cfg : Config) (h : cfg.anchor.height < cfg.endHeight) : Ground H cfg where
  stored b := b.height < cfg.endHeight
  placed _ k := k < cfg.endHeight
  placed_anchor := h
  placed_nil _ hk hlt := absurd hlt (not_lt.2 hk)

variable {hlow : cfg.anchor.height < cfg.endHeight}

theorem finished_micro {s s' : Engine S × Ghost S} (hm : Mem (Ground.below H cfg hlow).ctx Set.univ s.1)
    (h : Micro (Ground.below H cfg hlow).ctx Set.univ s s') : s'.1.finished = s.1.finished := by
  cases h with
  | @commit e g p b qc chain f h hf =>
    have hp : p.height < cfg.endHeight := by
      rcases (hm.blocks _ h.parent).2.1 with rfl | hs | ⟨-, -, hs⟩
      · exact hlow
      · exact hs
      · exact hs
    have hfalse : f = false := Bool.eq_false_iff.2 fun ht => absurd (hf.1 ht) (not_le.2 hp)
    simp [hfalse]
  | external hx => exact hx.elim
  | insertBlock =>
    simp only [Engine.insertBlock]
    split <;> rfl
  | _ => rfl

theorem finished_steps {s s' : Engine S × Ghost S} (hm : Mem (Ground.below H cfg hlow).ctx Set.univ s.1)
    (h : Steps (Ground.below H cfg hlow).ctx Set.univ s s') : s'.1.finished = s.1.finished := by
  induction h with
  | refl => rfl
  | tail hsteps h ih => rw [finished_micro (Steps.mem hsteps hm) h, ih]

theorem Engine.imported_finished (e : Engine S) (ev : Event S) : (e.imported ev).finished = e.finished := by
  cases ev with
  | externalCommit b qc =>
    simp only [Engine.imported]
    split <;> rfl
  | _ => rfl

theorem running_of_below {n : Nat} {ev : Event S} (hm : Mem (Ground.below H cfg hlow).ctx Set.univ e)
    (h : (Ground.below H cfg hlow).Takes e ev) (hon : e.on H n ev = some (e', l)) (hrun : e.finished = false) :
    l.any Effect.ends = false := by
  obtain ⟨hm', -, -, hend, g', hsteps, -⟩ := Ground.on_steps hm h hon
  by_contra hany
  have hfin := hend (by simpa using hany)
  rw [finished_steps hm' hsteps, Engine.imported_finished, hrun] at hfin
  cases hfin

end

/-- The engine was finished before, or it knows of nothing at or above the last height and nothing such
comes, or it has at most one seat and the input does not make it give up on a round. -/
def Engine.Calm (H : Hasher) (e : Engine S) (ev : Event S) : Prop :=
  e.finished = true ∨
    (∃ h : e.cfg.anchor.height < e.cfg.endHeight,
      Mem (Ground.below H e.cfg h).ctx Set.univ e ∧ (Ground.below H e.cfg h).Takes e ev) ∨
    e.cfg.me.length ≤ 1 ∧ e.Stays ev

/-- An engine and all it did since it was made, by calls with inputs that `ok` allows. -/
inductive Log (H : Hasher) (cfg : Config) (ok : Engine S → Event S → Prop) : Engine S → List (Effect S) → Prop
  | new : Log H cfg ok (Engine.new cfg) []
  | reanchored (lastVoted : Nat) : Log H cfg ok (Engine.reanchored cfg lastVoted) []
  | resume (p : Persisted S) : Log H cfg ok (Engine.resume cfg p) []
  | call {e l n ev e' l'} (h : Log H cfg ok e l) (hok : ok e ev) (hon : e.on H n ev = some (e', l')) :
      Log H cfg ok e' (l ++ l')

theorem Engine.Calm.closes {H : Hasher} {n : Nat} {ev : Event S} (h : e.Calm H ev)
    (hon : e.on H n ev = some (e', l)) : Closes l ∧ (l.any Effect.ends = true → e'.finished = true) := by
  rcases h with hf | ⟨hlow, hm, htakes⟩ | ⟨hme, hstays⟩
  · obtain ⟨hf', rfl⟩ := Engine.on_finished hf hon
    exact ⟨.nil, fun _ => hf'⟩
  · cases hrun : e.finished with
    | true =>
      obtain ⟨hf', rfl⟩ := Engine.on_finished hrun hon
      exact ⟨.nil, fun _ => hf'⟩
    | false =>
      have hl := running_of_below hm htakes hon hrun
      exact ⟨closes_of_running hl, fun h => by simp [hl] at h⟩
  · have hends := Engine.on_endsIn hme hstays _ _ hon
    exact ⟨hends.closes, hends.finished⟩

theorem Log.closes {H : Hasher} {cfg : Config} (h : Log H cfg (Engine.Calm H) e l) :
    Closes l ∧ (l.any Effect.ends = true → e.finished = true) := by
  induction h with
  | new => exact ⟨.nil, by rintro ⟨⟩⟩
  | reanchored => exact ⟨.nil, by rintro ⟨⟩⟩
  | resume => exact ⟨.nil, by rintro ⟨⟩⟩
  | @call e l n ev e' l' _ hok hon ih =>
    obtain ⟨hl, hfin⟩ := ih
    obtain ⟨hl', hfin'⟩ := hok.closes hon
    refine ⟨List.pairwise_append.2 ⟨hl, hl', fun a ha b hb hends => ?_⟩, fun hany => ?_⟩
    · rw [(Engine.on_finished (hfin (List.any_eq_true.2 ⟨a, ha, hends⟩)) hon).2] at hb
      cases hb
    · rw [List.any_append, Bool.or_eq_true] at hany
      exact hany.elim (fun h => (Engine.on_finished (hfin h) hon).1) hfin'

/-- After the epoch's end an engine whose calls are all calm neither signs nor sends nor proposes; in the
calls after the one that ended the epoch no engine does anything, whatever they bring. -/
theorem silent_after_epoch_end (H : Hasher) (cfg : Config) :
    (∀ (e : Engine S) l, Log H cfg (Engine.Calm H) e l → Closes l) ∧
    ∀ (e : Engine S) n ev e' l, e.finished = true → e.on H n ev = some (e', l) →
      e'.finished = true ∧ l = [] :=
  ⟨fun _ _ h => h.closes.1, fun _ _ _ _ _ hf hon => Engine.on_finished hf hon⟩

theorem Log.mono {H : Hasher} {cfg : Config} {ok ok' : Engine S → Event S → Prop}
    (hok : ∀ e ev, ok e ev → ok' e ev) (h : Log H cfg ok e l) : Log H cfg ok' e l := by
  induction h with
  | new => exact .new
  | reanchored v => exact .reanchored v
  | resume p => exact .resume p
  | call _ h hon ih => exact .call ih (hok _ _ h) hon

theorem Log.play {H : Hasher} {cfg : Config} {n : Nat} {ok : Engine S → Event S → Prop}
    [∀ e ev, Decidable (ok e ev)] {l' : List (Effect S)} {evs : List (Event S)} (h : Log H cfg ok e l)
    (heq : e.play H n ok evs = some (e', l')) : Log H cfg ok e' (l ++ l') := by
  induction evs generalizing e l l' with
  | nil =>
    cases heq
    rwa [List.append_nil]
  | cons ev evs ih =>
    unfold Engine.play at heq
    split at heq
    case isFalse => cases heq
    case isTrue hok =>
      obtain ⟨e₁, a, b, hon, hrest, rfl⟩ := Outcome.andThen_eq_some heq
      rw [← List.append_assoc]
      exact ih (h.call hok hon) hrest

instance : DecidablePred (Closes (S := S)) := fun l => by
  unfold Closes
  infer_instance

def Event.isQuit : Event S → Bool
  | .message (.timeout _) => true
  | _ => false

namespace Last

def ledger : Ledger where
  blocks := [⟨1, 100, 1, 1⟩]
  fresh := by decide
  height := by decide

/-- Member 0 leads every round, and makes a quorum with any other. -/
def base (weights : List UInt64) (me : List Nat) : Config :=
  ⟨7, 0, ⟨weights, [0]⟩, me, ⟨100, 0, 0, 0⟩, 1, 1000⟩

def anchorQc : Qc MockScheme := Engine.anchorQc (base [] [])

def nil (round : Nat) (parent : Hash) : Hash := ledger.hasher.nilHash 0 parent round

def qc (round : Nat) (block : Hash) (height : Nat) : Qc MockScheme :=
  ⟨0, round, block, height, [5], some [(0, .vote 7 0 round block), (2, .vote 7 0 round block)]⟩

def proposal (block : BlockInfo) (qc : Qc MockScheme) : Event MockScheme :=
  .message (.proposal ⟨0, block, qc, none, 0, [], (0, .proposal 7 0 block.round block.hash 0)⟩)

def chain : List (Event MockScheme) :=
  [.start, proposal ⟨1, 100, 1, 1⟩ anchorQc, proposal ⟨nil 2 1, 1, 2, 2⟩ (qc 1 1 1)]

def next : Event MockScheme := proposal ⟨nil 3 (nil 2 1), nil 2 1, 3, 3⟩ (qc 2 (nil 2 1) 2)

/-- Member 0 gives up on round 3, and brings the certificate of the first nil block. -/
def quit : Event MockScheme :=
  .message (.timeout ⟨0, 3, qc 2 (nil 2 1) 2, 0, (0, .timeout 7 0 3 2), none⟩)

end Last

/-- The timeout that brings the end of the epoch makes a single seat sign its own; and a second seat signs
its votes after the first one's ended the epoch. -/
theorem signs_after_epoch_end :
    (∃ (e : Engine MockScheme) (l : List (Effect MockScheme)),
      Log Last.ledger.hasher (Last.base [2, 1, 1] [1]) (fun _ _ => True) e l ∧ ¬ Closes l) ∧
    ∃ (e : Engine MockScheme) (l : List (Effect MockScheme)),
      Log Last.ledger.hasher (Last.base [3, 1] [0, 1]) (fun _ _ => True) e l ∧ ¬ Closes l := by
  have hjoin : ((Engine.new (Last.base [2, 1, 1] [1])).play Last.ledger.hasher 20 (fun _ _ => True)
      (Last.chain ++ [Last.quit])).map (fun s => decide (Closes s.2)) = some false := by decide +kernel
  have htwin : ((Engine.new (Last.base [3, 1] [0, 1])).play Last.ledger.hasher 20 (fun _ _ => True)
      [.start, .proposed ⟨1, 100, 1, 1⟩ Last.anchorQc none []]).map (fun s => decide (Closes s.2)) =
      some false := by decide +kernel
  obtain ⟨⟨e, l⟩, heq, hl⟩ := Option.map_eq_some_iff.1 hjoin
  obtain ⟨⟨e', l'⟩, heq', hl'⟩ := Option.map_eq_some_iff.1 htwin
  exact ⟨⟨e, l, Log.new.play heq, of_decide_eq_false hl⟩, e', l', Log.new.play heq', of_decide_eq_false hl'⟩

/-- An engine of a single seat that hears no timeout closes with the epoch's end. -/
theorem closes_with_epoch_end :
    ∃ (e : Engine MockScheme) (l : List (Effect MockScheme)),
      Log Last.ledger.hasher (Last.base [2, 1, 1] [1]) (Engine.Calm Last.ledger.hasher) e l ∧
      l.any Effect.ends = true ∧ Closes l := by
  have hplay : ((Engine.new (Last.base [2, 1, 1] [1])).play Last.ledger.hasher 20
      (fun e ev => e.cfg.me.length ≤ 1 ∧ ev.isQuit = false) (Last.chain ++ [Last.next])).map
      (fun s => s.2.any Effect.ends) = some true := by decide +kernel
  obtain ⟨⟨e, l⟩, heq, hl⟩ := Option.map_eq_some_iff.1 hplay
  have hlog : Log Last.ledger.hasher (Last.base [2, 1, 1] [1]) (Engine.Calm Last.ledger.hasher) e l := by
    refine (Log.new.play heq).mono fun e ev h => .inr (.inr ⟨h.1, ?_⟩)
    rintro t rfl
    cases h.2
  exact ⟨e, l, hlog, hl, (silent_after_epoch_end _ _).1 e l hlog⟩

end Boltchain.Consensus
