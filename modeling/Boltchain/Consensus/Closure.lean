import Boltchain.Consensus.Engine

namespace Boltchain.Consensus

open Lib.Assoc

variable {S : Scheme}

theorem Outcome.andThen_eq_some {o : Outcome S} {f : Engine S → Outcome S} {e' : Engine S} {l : List (Effect S)}
    (h : o.andThen f = some (e', l)) : ∃ e₁ a b, o = some (e₁, a) ∧ f e₁ = some (e', b) ∧ l = a ++ b := by
  cases o with
  | none => cases h
  | some r =>
    obtain ⟨e₁, a⟩ := r
    simp only [Outcome.andThen] at h
    cases hf : f e₁ with
    | none => simp [hf] at h
    | some r' =>
      obtain ⟨e₂, b⟩ := r'
      simp only [hf, Option.some.injEq, Prod.mk.injEq] at h
      obtain ⟨rfl, rfl⟩ := h
      exact ⟨e₁, a, b, rfl, hf, rfl⟩

namespace Effect

def ends : Effect S → Bool
  | .act (.epochEnd _ _) => true
  | _ => false

inductive Settles : Effect S → Prop
  | fetchBlock (h : Hash) : Settles (.act (.fetchBlock h))
  | commit (blocks : List BlockInfo) (proof : CommitProof S) : Settles (.act (.commit blocks proof))
  | epochEnd (b : BlockInfo) (proof : CommitProof S) : Settles (.act (.epochEnd b proof))

/-- A signature, or a signed message that is handed out. -/
inductive Utters : Effect S → Prop
  | sign (i : Nat) (m : SignMsg) (t : Stamp) : Utters (.sign i m t)
  | broadcast (m : Message S) : Utters (.act (.broadcast m))
  | sendTo (i : Nat) (m : Message S) : Utters (.act (.sendTo i m))

end Effect

/-- What `on_timeout_msg` has checked of a timeout, but for its round. -/
structure Timeout.Fits (cfg : Config) (t : Timeout S) : Prop where
  signer : t.signer < cfg.validators.len
  round : t.highQc.round < t.round
  sig : S.verify t.signer (.timeout cfg.chainId cfg.epoch t.round t.highQc.round) t.sig = true
  highQc : t.highQc.verify cfg.validators cfg.chainId cfg.epoch cfg.anchor.hash = true

namespace Engine

/-- `on_proposal` remembers the place of `p`'s block in the tree. -/
def Stores (H : Hasher) (e : Engine S) (p : Proposal S) : Prop :=
  e.checkProposal H p = true ∧ (e.blocks.lookup p.block.hash).isNone = true ∧
    e.committed.height < p.block.height ∧ p.block.height ≤ e.cfg.endHeight

def timeoutSet (e : Engine S) (t : Timeout S) : TimeoutSet S :=
  (e.timeouts.lookup t.round).getD ⟨[], t.highQc, false⟩

/-- What `on_timeout_msg` does with the last timeout certificate of its message. -/
def processLastTc (enter : Nat → Option (Tc S) → Engine S → Outcome S) (t : Timeout S) (e : Engine S) : Outcome S :=
  match t.lastTc with
  | some tc =>
    if tc.round + 1 = t.round ∧ e.round ≤ tc.round ∧ e.verifyTc tc = true then processTc enter tc e
    else some (e, [])
  | none => some (e, [])

/-- The certificate that `on_timeout_msg` builds when `t` joins the timeouts of its round. -/
def assembled (e : Engine S) (t : Timeout S) : Option (Tc S) :=
  let set := joinTimeout (e.timeoutSet t) t
  if (e.timeoutSet t).done then none
  else if e.cfg.validators.isQuorum (e.cfg.validators.weightOf (keys set.entries)) then
    some ⟨e.cfg.epoch, t.round, set.highQc, set.entries.insertionSort fun a b => a.1 ≤ b.1⟩
  else none

def joined (e : Engine S) (t : Timeout S) (done : Bool) : Engine S :=
  { e with timeouts := put e.timeouts t.round { joinTimeout (e.timeoutSet t) t with done } }

/-- Whether the timeouts of the current round, with `t`, make the engine give up on it too. -/
def joinsIn (e : Engine S) (t : Timeout S) : Bool :=
  e.cfg.validators.isOneThird (e.cfg.validators.weightOf (keys (joinTimeout (e.timeoutSet t) t).entries))
    && t.round == e.round && !e.timedOut.contains t.round

def joinRound (enter : Nat → Option (Tc S) → Engine S → Outcome S) (join : Engine S → Outcome S) (t : Timeout S)
    (e : Engine S) : Outcome S :=
  if (e.timeoutSet t).done then some (e, [])
  else
    match e.assembled t with
    | some tc => processTc enter tc (e.joined t true)
    | none =>
      if e.joinsIn t then join (e.joined t (e.timeoutSet t).done)
      else some (e.joined t (e.timeoutSet t).done, [])

theorem onTimeoutMsg_eq (enter : Nat → Option (Tc S) → Engine S → Outcome S) (join : Engine S → Outcome S)
    (t : Timeout S) (e : Engine S) :
    onTimeoutMsg enter join t e = if !e.checkTimeout t then some (e, [])
      else (processLastTc enter t e).andThen fun e =>
        (processQc enter t.highQc e).andThen (joinRound enter join t) := by
  unfold onTimeoutMsg
  split
  · rfl
  · congr 1
    funext e₁
    congr 1
    funext e₂
    have hset : (e₂.timeouts.lookup t.round).getD ⟨[], t.highQc, false⟩ = e₂.timeoutSet t := rfl
    simp only [hset, joinRound, assembled]
    by_cases hdone : (e₂.timeoutSet t).done = true
    · rw [if_pos hdone, if_pos hdone]
    · rw [if_neg hdone, if_neg hdone, if_neg hdone]
      by_cases hq : e₂.cfg.validators.isQuorum (e₂.cfg.validators.weightOf
          (keys (joinTimeout (e₂.timeoutSet t) t).entries)) = true
      · rw [if_pos hq, if_pos hq]
        rfl
      · rw [if_neg hq, if_neg hq]
        rfl

def givingUp (e : Engine S) : Engine S :=
  { e with
    lastVoted := max e.lastVoted e.round
    consecutiveTimeouts := e.consecutiveTimeouts + 1
    timedOut := if e.timedOut.contains e.round then e.timedOut else e.round :: e.timedOut }

def fetched (e : Engine S) (block : BlockInfo) : Engine S :=
  { e with
    requested := e.requested.filter (· ≠ block.hash)
    blocks := if e.committed.height < block.height then put e.blocks block.hash block else e.blocks }

def takesVote (e : Engine S) (v : Vote S) : Bool :=
  e.isMe (e.leader (v.round + 1)) && v.epoch == e.cfg.epoch && decide (v.signer < e.cfg.validators.len)
    && decide (e.round ≤ v.round + 2)

def entered (round : Nat) (tc : Option (Tc S)) (e : Engine S) : Engine S :=
  { e with round := round, entryTc := tc, requested := [] }

/-- What `enter_round` first does with a commit that was waiting for a block. -/
def retryCommit (e : Engine S) : Outcome S :=
  match e.blockedCommit with
  | some qc => e.tryCommit qc
  | none => some (e, [])

def proposing (round : Nat) (e : Engine S) : Engine S := { e.prune with proposed := round :: e.prune.proposed }

def nilBlock (H : Hasher) (round : Nat) (e : Engine S) : BlockInfo :=
  ⟨H.nilHash e.cfg.epoch e.highQc.block round, e.highQc.block, round, e.highQc.height + 1⟩

def openRound (H : Hasher) (n round : Nat) (e : Engine S) : Outcome S :=
  e.retryCommit.andThen fun e =>
    if e.finished then some (e, [])
    else if e.isMe (e.leader round) && !e.prune.proposed.contains round then
      if e.isNilHeight (e.highQc.height + 1) then
        Outcome.andThen (some (e.proposing round, [.act (.scheduleTimeout round e.timeoutMs)]))
          (onProposed H (enterRound H n) (e.nilBlock H round) e.highQc e.entryTc [])
      else some (e.proposing round, [.act (.scheduleTimeout round e.timeoutMs), .act (.propose round e.highQc e.entryTc)])
    else some (e.prune, [.act (.scheduleTimeout round e.timeoutMs)])

theorem enterRound_succ (H : Hasher) (n round : Nat) (tc : Option (Tc S)) (e : Engine S) :
    enterRound H (n + 1) round tc e =
      if round ≤ e.round then some (e, []) else openRound H n round (e.entered round tc) := rfl

def CommitsTo (e e' : Engine S) : Prop :=
  ∃ committed blocked requested finished, e' = { e with
    committed := committed
    blockedCommit := blocked
    requested := requested
    finished := finished }

/-- A commit moves the committed block or waits for a block, and says no more than that. -/
structure Settling (e e' : Engine S) (l : List (Effect S)) : Prop where
  frame : e.CommitsTo e'
  settles : ∀ x ∈ l, x.Settles
  ends : l.any Effect.ends = true → e'.finished = true
  idle : e.finished = true → e' = e ∧ l = []

variable {e e' : Engine S} {l : List (Effect S)} {qc : Qc S}

theorem settling_blockOn {h : Hash} (hf : e.finished = false) (heq : some (e.blockOn qc h) = some (e', l)) :
    Settling e e' l := by
  unfold blockOn at heq
  dsimp only at heq
  split at heq <;> cases heq
  · exact ⟨⟨_, _, _, _, rfl⟩, by simp, by simp, by simp [hf]⟩
  · exact ⟨⟨_, _, _, _, rfl⟩, by simp [Effect.Settles.fetchBlock], by simp [Effect.ends], by simp [hf]⟩

theorem settling_commitChain {p b : BlockInfo} {pqc : Qc S} {chain : List BlockInfo} (hf : e.finished = false)
    (heq : e.commitChain p b pqc qc chain = some (e', l)) : Settling e e' l := by
  unfold commitChain at heq
  dsimp only at heq
  split at heq
  case h_1 => cases heq
  case h_2 =>
    split at heq <;> split at heq <;> cases heq <;>
      exact ⟨⟨_, _, _, _, rfl⟩, by simp [Effect.Settles.commit, Effect.Settles.epochEnd], by simp [Effect.ends],
        by simp [hf]⟩

theorem settling_tryCommit (heq : e.tryCommit qc = some (e', l)) : Settling e e' l := by
  have hnothing : Settling e e [] := ⟨⟨_, _, _, _, rfl⟩, by simp, by simp, fun _ => ⟨rfl, rfl⟩⟩
  unfold tryCommit at heq
  split at heq
  case isTrue =>
    cases heq
    exact hnothing
  case isFalse hf =>
    rw [Bool.not_eq_true] at hf
    repeat' split at heq
    all_goals first
      | exact settling_blockOn hf heq
      | exact settling_commitChain hf heq
      | (cases heq; exact hnothing)
      | cases heq

theorem settling_retryCommit (heq : e.retryCommit = some (e', l)) : Settling e e' l := by
  unfold retryCommit at heq
  split at heq
  · exact settling_tryCommit heq
  · cases heq
    exact ⟨⟨_, _, _, _, rfl⟩, by simp, by simp, fun _ => ⟨rfl, rfl⟩⟩

theorem fits_of_checkTimeout {t : Timeout S} (h : e.checkTimeout t = true) : t.Fits e.cfg := by
  simp only [checkTimeout, Bool.and_eq_true, decide_eq_true_eq] at h
  obtain ⟨⟨⟨⟨⟨-, hlt⟩, -⟩, hround⟩, hsig⟩, hqc⟩ := h
  exact ⟨hlt, hround, hsig, hqc⟩

end Engine

/-- What entering a round ends with, once the commit that waited was tried again. -/
inductive Opens (round : Nat) (e : Engine S) : Engine S → List (Effect S) → Prop
  | finished (hf : e.finished = true) : Opens round e e []
  | waits (hf : e.finished = false) : Opens round e e.prune [.act (.scheduleTimeout round e.timeoutMs)]
  | proposes (hf : e.finished = false) :
      Opens round e (e.proposing round) [.act (.scheduleTimeout round e.timeoutMs)]
  | asks (hf : e.finished = false) : Opens round e (e.proposing round)
      [.act (.scheduleTimeout round e.timeoutMs), .act (.propose round e.highQc e.entryTc)]

/-- A relation between the engine before a call, the one after it and the call's effects. -/
abbrev Rel (S : Scheme) := Engine S → Engine S → List (Effect S) → Prop

/-- `P` holds of the calls that give up on no round, and `E r` of those that enter round `r`, if they
hold of each update. Blocks enter the tree as nil blocks or as `brings` allows, and validation is asked
for blocks that `asks` allows. -/
structure Carries (H : Hasher) (brings asks : BlockInfo → Prop) (P : Rel S) (E : Nat → Rel S) : Prop where
  nothing : ∀ {e}, P e e []
  trans : ∀ {e e₁ e' a b}, P e e₁ a → P e₁ e' b → P e e' (a ++ b)
  erase : ∀ {e e' l} h, P e e' l → P e e' (l.eraseP (Engine.isValidate h))
  stay : ∀ {e e' qc l}, (e.recordQc qc).tryCommit qc = some (e', l) → qc.round < e'.round → P e e' l
  leave : ∀ {e e₁ e' qc a b}, (e.recordQc qc).tryCommit qc = some (e₁, a) → e₁.round ≤ qc.round →
    E (qc.round + 1) { e₁ with consecutiveTimeouts := 0 } e' b → P e e' (a ++ b)
  enter : ∀ {e e' : Engine S} {r l}, e.round < r → E r e e' l → P e e' l
  opens : ∀ {e e₁ e' : Engine S} {r tc a b}, e.round < r → (e.entered r tc).retryCommit = some (e₁, a) →
    Opens r e₁ e' b → E r e e' (a ++ b)
  follow : ∀ {e e₁ e' r a b}, E r e e₁ a → P e₁ e' b → E r e e' (a ++ b)
  insert : ∀ {e : Engine S} {b}, e.blocks.lookup b.hash = none → e.committed.height < b.height →
    (e.cfg.endHeight < b.height ∧ b.hash = H.nilHash e.cfg.epoch b.parent b.round ∨ brings b) →
    P e { e with blocks := put e.blocks b.hash b } []
  count : ∀ {e : Engine S} {v set set' cert}, e.takesVote v = true →
    ((e.votes.lookup (v.round, v.block)).getD ⟨v.height, [], [], false⟩).add v (e.voteMsg v.round v.block) = some set →
    set.certify e.cfg.validators (e.voteMsg v.round v.block) = (set', cert) →
    P e { e with votes := put e.votes (v.round, v.block) set' } []
  pend : ∀ {e} pending lastVoted, P e { e with pending, lastVoted } []
  validate : ∀ {e p}, asks p.block → P e e [.act (.validate p)]
  utter : ∀ {e l}, e.finished = false ∨ 1 < e.cfg.me.length → (∀ x ∈ l, x.Utters) → P e e l

def Does (P : Rel S) (e : Engine S) (o : Outcome S) : Prop :=
  ∀ e' l, o = some (e', l) → e'.cfg = e.cfg ∧ P e e' l

variable {H : Hasher} {brings asks : BlockInfo → Prop} {P : Rel S} {E : Nat → Rel S} {e e₁ : Engine S}

theorem Engine.CommitsTo.cfg {e' : Engine S} (h : e.CommitsTo e') : e'.cfg = e.cfg := by
  obtain ⟨_, _, _, _, rfl⟩ := h
  rfl

theorem Engine.CommitsTo.round {e' : Engine S} (h : e.CommitsTo e') : e'.round = e.round := by
  obtain ⟨_, _, _, _, rfl⟩ := h
  rfl

namespace Does

theorem diverges : Does P e none := by
  rintro e' l ⟨⟩

theorem ret {l : List (Effect S)} (hcfg : e₁.cfg = e.cfg) (h : P e e₁ l) : Does P e (some (e₁, l)) := by
  rintro e' l' ⟨⟩
  exact ⟨hcfg, h⟩

section

variable (hC : Carries H brings asks P E)

include hC

theorem nothing : Does P e (some (e, [])) := ret rfl hC.nothing

theorem andThen {o : Outcome S} {f : Engine S → Outcome S} (ho : Does P e o)
    (hf : ∀ e₁, e₁.cfg = e.cfg → Does P e₁ (f e₁)) : Does P e (o.andThen f) := by
  intro e' l heq
  obtain ⟨e₁, a, b, ho', hf', rfl⟩ := Outcome.andThen_eq_some heq
  obtain ⟨hcfg, ha⟩ := ho e₁ a ho'
  obtain ⟨hcfg', hb⟩ := hf e₁ hcfg e' b hf'
  exact ⟨hcfg'.trans hcfg, hC.trans ha hb⟩

theorem step {o : Outcome S} (h : P e e₁ []) (hcfg : e₁.cfg = e.cfg) (ho : Does P e₁ o) : Does P e o := by
  intro e' l heq
  obtain ⟨hcfg', hl⟩ := ho e' l heq
  exact ⟨hcfg'.trans hcfg, hC.trans h hl⟩

variable {p : Proposal S}

theorem insertBlock (hcheck : e.checkProposal H p = true) (hb : e.Stores H p → brings p.block) :
    (e.insertBlock p.block).cfg = e.cfg ∧ P e (e.insertBlock p.block) [] := by
  unfold Engine.insertBlock
  split
  case isTrue hnew =>
    refine ⟨rfl, hC.insert (Option.isNone_iff_eq_none.1 hnew.1) hnew.2 ?_⟩
    by_cases hnil : e.cfg.endHeight < p.block.height
    · -- the check has compared the hash of a nil block
      refine .inl ⟨hnil, ?_⟩
      simp only [Engine.checkProposal, Engine.isNilHeight, Bool.and_eq_true, Bool.or_eq_true,
        Bool.not_eq_true', decide_eq_false_iff_not, beq_iff_eq] at hcheck
      exact (hcheck.1.1.1.2.resolve_left (not_not.2 hnil)).1
    · exact .inr (hb ⟨hcheck, hnew.1, hnew.2, not_lt.1 hnil⟩)
  case isFalse => exact ⟨rfl, hC.nothing⟩

variable {enter : Nat → Option (Tc S) → Engine S → Outcome S}
  (henter : ∀ r tc e, e.round < r → Does (E r) e (enter r tc e))

include henter

theorem processQc {qc : Qc S} : Does P e (Engine.processQc enter qc e) := by
  intro e' l heq
  obtain ⟨e₁, a, b, hcommit, hrest, rfl⟩ := Outcome.andThen_eq_some heq
  have hcfg : e₁.cfg = e.cfg := (Engine.settling_tryCommit hcommit).frame.cfg
  split at hrest
  case isTrue hle =>
    obtain ⟨hcfg', hb⟩ := henter _ _ { e₁ with consecutiveTimeouts := 0 } (Nat.lt_succ_of_le hle) _ _ hrest
    exact ⟨hcfg'.trans hcfg, hC.leave hcommit hle hb⟩
  case isFalse hlt =>
    cases hrest
    rw [List.append_nil]
    exact ⟨hcfg, hC.stay hcommit (not_le.1 hlt)⟩

theorem processTc {tc : Tc S} : Does P e (Engine.processTc enter tc e) := by
  refine andThen hC (processQc hC henter) fun e₁ _ => ?_
  split
  case isTrue hle =>
    intro e' l heq
    obtain ⟨hcfg, hl⟩ := henter _ _ _ (Nat.lt_succ_of_le hle) _ _ heq
    exact ⟨hcfg, hC.enter (Nat.lt_succ_of_le hle) hl⟩
  case isFalse => exact nothing hC

variable {tc : Option (Tc S)}

theorem processTcOpt : Does P e (Engine.processTcOpt enter tc e) := by
  cases tc with
  | none => exact nothing hC
  | some tc => exact processTc hC henter

theorem processLastTc {t : Timeout S} : Does P e (Engine.processLastTc enter t e) := by
  unfold Engine.processLastTc
  split
  · split
    · exact processTc hC henter
    · exact nothing hC
  · exact nothing hC

theorem onVote {v : Vote S} : Does P e (Engine.onVote enter v e) := by
  unfold Engine.onVote
  dsimp only
  split
  case isTrue => exact nothing hC
  case isFalse hcond =>
    have htake : e.takesVote v = true := by
      rw [Bool.not_eq_true] at hcond
      simpa [Engine.takesVote, and_assoc] using hcond
    split
    case h_1 => exact nothing hC
    case h_2 set hadd =>
      have hcount := hC.count htake hadd rfl
      split
      · exact ret rfl hcount
      · exact step hC hcount rfl (processQc hC henter)

/-- The first seat votes while the engine runs. -/
theorem voteAll {last : Nat} {seats : List Nat} (hrun : seats ≠ [] → e.finished = false ∨ 1 < e.cfg.me.length)
    (hlen : seats.length ≤ e.cfg.me.length) : Does P e (Engine.voteAll enter p last seats e) := by
  induction seats generalizing e with
  | nil => exact nothing hC
  | cons me seats ih =>
    have hrun := hrun (List.cons_ne_nil _ _)
    unfold Engine.voteAll
    dsimp only
    apply andThen hC
    · split
      · refine andThen hC (ret rfl (hC.utter hrun ?_)) fun _ _ => onVote hC henter
        simp [Effect.Utters.sign]
      · refine ret rfl (hC.utter hrun ?_)
        simp [Effect.Utters.sign, Effect.Utters.sendTo]
    · intro e₁ hcfg
      rw [List.length_cons] at hlen
      refine ih (fun hne => .inr ?_) (by rw [hcfg]; omega)
      have hpos := List.length_pos_iff.2 hne
      rw [hcfg]
      omega

theorem onValidated {block : Hash} {valid : Bool} : Does P e (Engine.onValidated enter block valid e) := by
  unfold Engine.onValidated
  dsimp only
  split
  case h_1 => exact nothing hC
  case h_2 =>
    have hdel : Does P e (some ({ e with pending := del e.pending block }, [])) := ret rfl (hC.pend _ _)
    split
    case isTrue => exact hdel
    case isFalse =>
      split
      case isTrue => exact hdel
      case isFalse hcond =>
        simp only [not_or, Bool.not_eq_true] at hcond
        split
        case isTrue => exact hdel
        case isFalse =>
          refine step hC (hC.pend (del e.pending block) _) rfl (voteAll hC henter (fun _ => .inl ?_) (Nat.le_refl _))
          exact hcond.2.2.2

theorem considerVote {nil : Bool} (hask : nil = false → asks p.block) :
    Does P e (Engine.considerVote enter p nil e) := by
  unfold Engine.considerVote
  dsimp only
  split
  · exact nothing hC
  · split
    · exact nothing hC
    · split
      · exact nothing hC
      · have hpend : P e { e with pending := put e.pending p.block.hash p } [] := hC.pend _ _
        split
        case isTrue => exact step hC hpend rfl (onValidated hC henter)
        case isFalse hnil => exact ret rfl (hC.trans hpend (hC.validate (hask (by simpa using hnil))))

theorem onProposal (hb : e.Stores H p → brings p.block) (hask : p.block.height ≤ e.cfg.endHeight → asks p.block) :
    Does P e (Engine.onProposal H enter p e) := by
  unfold Engine.onProposal
  split
  case isTrue => exact nothing hC
  case isFalse hcheck =>
    rw [Bool.not_eq_true', Bool.not_eq_false] at hcheck
    obtain ⟨hcfg, hinsert⟩ := insertBlock hC hcheck hb
    refine step hC hinsert hcfg (andThen hC (processQc hC henter) fun e₁ _ => ?_)
    refine andThen hC (processTcOpt hC henter) fun _ _ => considerVote hC henter fun hnil => hask ?_
    exact not_lt.1 (of_decide_eq_false hnil)

theorem onProposed {block : BlockInfo} {qc : Qc S} {payload : Bytes} (hb : block.height ≤ e.cfg.endHeight → brings block)
    (hask : block.height ≤ e.cfg.endHeight → asks block) :
    Does P e (Engine.onProposed H enter block qc tc payload e) := by
  unfold Engine.onProposed
  dsimp only
  split
  case isTrue => exact nothing hC
  case isFalse hcond =>
    simp only [not_or, Bool.not_eq_true] at hcond
    split
    case h_1 => exact diverges
    case h_2 _ e₁ out heq =>
      obtain ⟨hcfg, hout⟩ := onProposal hC henter (fun hs => hb hs.2.2.2) hask e₁ out heq
      have hsigned : P e e [.sign (e.leader block.round) (e.proposalMsg H block.round block.hash payload) e.stamp,
          .act (.broadcast (.proposal (e.ownProposal H block qc tc payload)))] := by
        refine hC.utter (.inl hcond.2.2) ?_
        simp [Effect.Utters.sign, Effect.Utters.broadcast]
      have hall := hC.trans hsigned hout
      split
      · exact andThen hC (ret hcfg (hC.erase _ hall)) fun _ _ => onValidated hC henter
      · exact ret hcfg hall

end

section

variable (hC : Carries H brings asks P E)

include hC

theorem openRound {n r : Nat} {tc : Option (Tc S)}
    (henter : ∀ r tc (e : Engine S), e.round < r → Does (E r) e (Engine.enterRound H n r tc e)) (hr : e.round < r) :
    Does (E r) e (Engine.openRound H n r (e.entered r tc)) := by
  intro e' l heq
  obtain ⟨e₁, a, b, hretry, hrest, rfl⟩ := Outcome.andThen_eq_some heq
  have hcfg : e₁.cfg = e.cfg := (Engine.settling_retryCommit hretry).frame.cfg
  split at hrest
  case isTrue hf =>
    cases hrest
    exact ⟨hcfg, hC.opens hr hretry (.finished hf)⟩
  case isFalse hf =>
    rw [Bool.not_eq_true] at hf
    split at hrest
    case isFalse =>
      cases hrest
      exact ⟨hcfg, hC.opens hr hretry (.waits hf)⟩
    case isTrue =>
      split at hrest
      case isFalse =>
        cases hrest
        exact ⟨hcfg, hC.opens hr hretry (.asks hf)⟩
      case isTrue hnil =>
        have habove : ¬(e₁.nilBlock H r).height ≤ (e₁.proposing r).cfg.endHeight := not_le.2 (of_decide_eq_true hnil)
        obtain ⟨e₂, a₂, b₂, hproposing, hproposed, rfl⟩ := Outcome.andThen_eq_some hrest
        cases hproposing
        obtain ⟨hcfg', hb⟩ := onProposed hC henter (absurd · habove) (absurd · habove) _ _ hproposed
        rw [← List.append_assoc]
        exact ⟨hcfg'.trans hcfg, hC.follow (hC.opens hr hretry (.proposes hf)) hb⟩

theorem enterRound (n : Nat) : ∀ r tc (e : Engine S), e.round < r → Does (E r) e (Engine.enterRound H n r tc e) := by
  induction n with
  | zero => exact fun _ _ _ _ => diverges
  | succ n ih =>
    intro r tc e hr
    rw [Engine.enterRound_succ, if_neg (not_le.2 hr)]
    exact openRound hC ih hr

end

end Does

/-- The updates of the other calls. -/
structure CarriesTimeouts (H : Hasher) (brings asks : BlockInfo → Prop) (P : Rel S) (E : Nat → Rel S) : Prop
    extends Carries H brings asks P E where
  join : ∀ {e : Engine S} {t : Timeout S} done, t.Fits e.cfg → P e (e.joined t done) []
  quit : ∀ {e : Engine S} {ms}, P e e.givingUp [.act (.scheduleTimeout e.round ms)]
  pass : ∀ {e : Engine S} {ms}, P e { e with
    lastVoted := max e.lastVoted e.round, consecutiveTimeouts := e.consecutiveTimeouts + 1 }
    [.act (.scheduleTimeout e.round ms)]
  speak : ∀ {e l}, (∀ x ∈ l, x.Utters) → P e e l
  retry : ∀ {e e' : Engine S} {l}, e.retryCommit = some (e', l) → P e e' l

namespace Does

section

variable (hC : CarriesTimeouts H brings asks P E) {enter : Nat → Option (Tc S) → Engine S → Outcome S}
  (henter : ∀ r tc e, e.round < r → Does (E r) e (enter r tc e)) {join : Engine S → Outcome S} {t : Timeout S}

include hC henter

theorem joinRound (hjoin : ∀ e, Does P e (join e)) (ht : t.Fits e.cfg) :
    Does P e (Engine.joinRound enter join t e) := by
  unfold Engine.joinRound
  split
  · exact nothing hC.toCarries
  · split
    · exact step hC.toCarries (hC.join true ht) rfl (processTc hC.toCarries henter)
    · split
      · exact step hC.toCarries (hC.join _ ht) rfl (hjoin _)
      · exact ret rfl (hC.join _ ht)

theorem onTimeoutMsg (hjoin : ∀ e, Does P e (join e)) : Does P e (Engine.onTimeoutMsg enter join t e) := by
  rw [Engine.onTimeoutMsg_eq]
  split
  case isTrue => exact nothing hC.toCarries
  case isFalse hcheck =>
    rw [Bool.not_eq_true', Bool.not_eq_false] at hcheck
    have ht := Engine.fits_of_checkTimeout hcheck
    refine andThen hC.toCarries (processLastTc hC.toCarries henter) fun e₁ h₁ => ?_
    refine andThen hC.toCarries (processQc hC.toCarries henter) fun e₂ h₂ => joinRound hC henter hjoin ?_
    rwa [h₂, h₁]

theorem timeoutAll (hjoin : ∀ e, Does P e (join e)) {round q : Nat} {seats : List Nat} :
    Does P e (Engine.timeoutAll enter join round q seats e) := by
  induction seats generalizing e with
  | nil => exact nothing hC.toCarries
  | cons me seats ih =>
    unfold Engine.timeoutAll
    dsimp only
    refine andThen hC.toCarries (ret rfl (hC.speak ?_)) fun e₁ _ => ?_
    · simp [Effect.Utters.sign, Effect.Utters.broadcast]
    · refine andThen hC.toCarries (onTimeoutMsg hC henter hjoin) fun e₂ _ => ?_
      split
      · exact nothing hC.toCarries
      · exact ih

theorem localTimeout (k : Nat) : ∀ e, Does P e (Engine.localTimeout enter k e) := by
  induction k with
  | zero => exact fun _ => diverges
  | succ k ih =>
    intro e
    unfold Engine.localTimeout
    dsimp only
    split
    · exact ret rfl hC.pass
    · exact andThen hC.toCarries (ret rfl hC.quit) fun _ _ => timeoutAll hC henter ih

end

end Does

/-- What an input brings into the block tree is allowed. -/
def Event.Carried (H : Hasher) (brings : BlockInfo → Prop) (P : Rel S) (e : Engine S) : Event S → Prop
  | .message (.proposal p) => e.Stores H p → brings p.block
  | .proposed b _ _ _ => b.height ≤ e.cfg.endHeight → brings b
  | .block b => P e (e.fetched b) []
  | .externalCommit b qc => e.committed.height < b.height → e.verifyQc qc = true → qc.block = b.hash →
      P e { e with blocks := put e.blocks b.hash b, committed := b } []
  | _ => True

theorem Does.on {n : Nat} {ev : Event S} (hC : CarriesTimeouts H brings (fun _ => True) P E)
    (hev : ev.Carried H brings P e) : Does P e (e.on H n ev) := by
  have hC' := hC.toCarries
  have henter := Does.enterRound hC' n
  cases ev with
  | start =>
    intro e' l heq
    obtain ⟨hcfg, hl⟩ := henter _ none e (Nat.lt_succ_self _) e' l heq
    exact ⟨hcfg, hC.enter (Nat.lt_succ_self _) hl⟩
  | message m =>
    simp only [Engine.on, Engine.onMessage]
    split
    · exact nothing hC'
    · cases m with
      | proposal p => exact onProposal hC' henter hev fun _ => trivial
      | vote v => exact onVote hC' henter
      | timeout t => exact onTimeoutMsg hC henter (localTimeout hC henter n)
  | validated b ok => exact onValidated hC' henter
  | proposed b qc tc payload => exact onProposed hC' henter hev fun _ => trivial
  | timeout r =>
    simp only [Engine.on, Engine.onTimeout]
    split
    · exact nothing hC'
    · exact localTimeout hC henter n e
  | block b =>
    refine step hC' hev rfl fun e' l heq => ?_
    exact ⟨(Engine.settling_retryCommit heq).frame.cfg, hC.retry heq⟩
  | externalCommit b qc =>
    simp only [Engine.on, Engine.onExternalCommit]
    split
    case isTrue => exact nothing hC'
    case isFalse hcond =>
      simp only [not_or, not_le, Bool.not_eq_false, ne_eq, not_not] at hcond
      exact step hC' (hev hcond.1 hcond.2.1 hcond.2.2) rfl (processQc hC' henter)

end Boltchain.Consensus
