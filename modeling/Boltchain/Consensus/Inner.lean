import Boltchain.Consensus.Calls

namespace Boltchain.Consensus

open Lib.Assoc

variable {S : Scheme}

/-- The functions an engine calls while it handles an input; `join` is the second half of
`on_timeout_msg`, once the certificates of the message were processed. -/
inductive Inner (S : Scheme) where
  | commit (qc : Qc S)
  | qc (qc : Qc S)
  | tc (tc : Tc S)
  | enter (round : Nat) (tc : Option (Tc S))
  | vote (v : Vote S)
  | votes (p : Proposal S) (last : Nat) (seats : List Nat)
  | validated (block : Hash) (valid : Bool)
  | consider (p : Proposal S) (nil : Bool)
  | proposal (p : Proposal S)
  | proposed (b : BlockInfo) (qc : Qc S) (tc : Option (Tc S)) (payload : Bytes)
  | timeout (t : Timeout S)
  | join (t : Timeout S)
  | timeouts (round q : Nat) (seats : List Nat)
  | giveUp

section Calls

variable (H : Hasher)

/-- The calls inside a call, each with the state it is made in. The numbers bound the rounds and the
timeouts one call can go through, as in `enterRound` and `localTimeout`. -/
inductive Makes : Nat → Nat → Inner S → Engine S → Inner S → Engine S → Prop
  | self {n k c e} : Makes n k c e c e
  | qcCommit {n k qc e c e'} (h : Makes n k (.commit qc) (e.recordQc qc) c e') : Makes n k (.qc qc) e c e'
  | qcEnter {n k qc e e₁ a c e'} (hcommit : (e.recordQc qc).tryCommit qc = some (e₁, a)) (hr : e₁.round ≤ qc.round)
      (h : Makes n k (.enter (qc.round + 1) none) { e₁ with consecutiveTimeouts := 0 } c e') :
      Makes n k (.qc qc) e c e'
  | tcQc {n k tc e c e'} (h : Makes n k (.qc tc.highQc) e c e') : Makes n k (.tc tc) e c e'
  | tcEnter {n k tc e e₁ a c e'} (hqc : Engine.processQc (Engine.enterRound H n) tc.highQc e = some (e₁, a))
      (hr : e₁.round ≤ tc.round) (h : Makes n k (.enter (tc.round + 1) (some tc)) e₁ c e') :
      Makes n k (.tc tc) e c e'
  | enterCommit {n k round tc e qc c e'} (hr : e.round < round) (hq : e.blockedCommit = some qc)
      (h : Makes n k (.commit qc) (e.entered round tc) c e') : Makes (n + 1) k (.enter round tc) e c e'
  | enterPropose {n k round tc e e₁ a c e'} (hr : e.round < round)
      (hretry : (e.entered round tc).retryCommit = some (e₁, a)) (hf : e₁.finished = false)
      (hme : (e₁.isMe (e₁.leader round) && !e₁.prune.proposed.contains round) = true)
      (hnil : e₁.isNilHeight (e₁.highQc.height + 1) = true)
      (h : Makes n k (.proposed (e₁.nilBlock H round) e₁.highQc e₁.entryTc []) (e₁.proposing round) c e') :
      Makes (n + 1) k (.enter round tc) e c e'
  | vote {n k v e set set' signers agg c e'} (htake : e.takesVote v = true)
      (hadd : ((e.votes.lookup (v.round, v.block)).getD ⟨v.height, [], [], false⟩).add v (e.voteMsg v.round v.block) =
        some set)
      (hcert : set.certify e.cfg.validators (e.voteMsg v.round v.block) = (set', some (signers, agg)))
      (h : Makes n k (.qc ⟨e.cfg.epoch, v.round, v.block, set'.height, Bitmap.encode signers e.cfg.validators.len, some agg⟩)
        { e with votes := put e.votes (v.round, v.block) set' } c e') : Makes n k (.vote v) e c e'
  | votesFirst {n k p last me rest e c e'} (hme : e.isMe (e.leader (p.block.round + 1)) = true)
      (h : Makes n k (.vote ⟨e.cfg.epoch, p.block.round, p.block.hash, p.block.height, me,
        S.sign me (e.voteMsg p.block.round p.block.hash)⟩) e c e') : Makes n k (.votes p last (me :: rest)) e c e'
  | votesRest {n k p last me rest e e₁ a c e'}
      (hvote : if e.isMe (e.leader (p.block.round + 1)) then
          Engine.onVote (Engine.enterRound H n) ⟨e.cfg.epoch, p.block.round, p.block.hash, p.block.height, me,
            S.sign me (e.voteMsg p.block.round p.block.hash)⟩ e = some (e₁, a)
        else e₁ = e)
      (h : Makes n k (.votes p last rest) e₁ c e') : Makes n k (.votes p last (me :: rest)) e c e'
  | validated {n k block e p c e'} (hp : e.pending.lookup block = some p) (hr : p.block.round = e.round)
      (hlast : e.lastVoted < p.block.round) (hsafe : Engine.safeToVote p = true) (hf : e.finished = false)
      (h : Makes n k (.votes p e.lastVoted e.cfg.me)
        { e with pending := del e.pending block, lastVoted := p.block.round } c e') :
      Makes n k (.validated block true) e c e'
  | consider {n k p e c e'} (hr : p.block.round = e.round) (hlast : e.lastVoted < p.block.round)
      (hf : e.finished = false) (hsafe : Engine.safeToVote p = true) (hnew : e.pending.lookup p.block.hash = none)
      (h : Makes n k (.validated p.block.hash true) { e with pending := put e.pending p.block.hash p } c e') :
      Makes n k (.consider p true) e c e'
  | proposalQc {n k p e c e'} (hcheck : e.checkProposal H p = true)
      (h : Makes n k (.qc p.qc) (e.insertBlock p.block) c e') : Makes n k (.proposal p) e c e'
  | proposalTc {n k p e e₁ a tc c e'} (hcheck : e.checkProposal H p = true)
      (hqc : Engine.processQc (Engine.enterRound H n) p.qc (e.insertBlock p.block) = some (e₁, a)) (htc : p.tc = some tc)
      (h : Makes n k (.tc tc) e₁ c e') : Makes n k (.proposal p) e c e'
  | proposalVote {n k p e e₁ e₂ a b c e'} (hcheck : e.checkProposal H p = true)
      (hqc : Engine.processQc (Engine.enterRound H n) p.qc (e.insertBlock p.block) = some (e₁, a))
      (htc : Engine.processTcOpt (Engine.enterRound H n) p.tc e₁ = some (e₂, b))
      (h : Makes n k (.consider p (e.isNilHeight p.block.height)) e₂ c e') : Makes n k (.proposal p) e c e'
  | proposedOwn {n k b qc tc payload e c e'} (hturn : b.round = e.round ∧ e.isMe (e.leader b.round) = true ∧ e.finished = false)
      (h : Makes n k (.proposal (e.ownProposal H b qc tc payload)) e c e') :
      Makes n k (.proposed b qc tc payload) e c e'
  | proposedVote {n k b qc tc payload e e₁ a c e'}
      (hturn : b.round = e.round ∧ e.isMe (e.leader b.round) = true ∧ e.finished = false)
      (hown : Engine.onProposal H (Engine.enterRound H n) (e.ownProposal H b qc tc payload) e = some (e₁, a))
      (hask : a.any (Engine.isValidate b.hash) = true)
      (h : Makes n k (.validated b.hash true) e₁ c e') : Makes n k (.proposed b qc tc payload) e c e'
  | timeoutTc {n k t e tc c e'} (hcheck : e.checkTimeout t = true) (htc : t.lastTc = some tc)
      (hlast : tc.round + 1 = t.round ∧ e.round ≤ tc.round ∧ e.verifyTc tc = true)
      (h : Makes n k (.tc tc) e c e') : Makes n k (.timeout t) e c e'
  | timeoutQc {n k t e e₁ a c e'} (hcheck : e.checkTimeout t = true)
      (htc : Engine.processLastTc (Engine.enterRound H n) t e = some (e₁, a)) (h : Makes n k (.qc t.highQc) e₁ c e') :
      Makes n k (.timeout t) e c e'
  | timeoutJoin {n k t e e₁ e₂ a b c e'} (hcheck : e.checkTimeout t = true)
      (htc : Engine.processLastTc (Engine.enterRound H n) t e = some (e₁, a))
      (hqc : Engine.processQc (Engine.enterRound H n) t.highQc e₁ = some (e₂, b)) (h : Makes n k (.join t) e₂ c e') :
      Makes n k (.timeout t) e c e'
  | joinTc {n k t e tc c e'} (htc : e.assembled t = some tc) (h : Makes n k (.tc tc) (e.joined t true) c e') :
      Makes n k (.join t) e c e'
  | joinGiveUp {n k t e c e'} (hdone : (e.timeoutSet t).done = false) (hnone : e.assembled t = none)
      (hthird : e.joinsIn t = true) (h : Makes n k .giveUp (e.joined t (e.timeoutSet t).done) c e') :
      Makes n k (.join t) e c e'
  | giveUp {n k e c e'} (hme : e.cfg.me ≠ [])
      (h : Makes n k (.timeouts e.round e.highQc.round e.cfg.me) e.givingUp c e') : Makes n (k + 1) .giveUp e c e'
  | timeoutsFirst {n k round q me rest e c e'}
      (h : Makes n k (.timeout ⟨e.cfg.epoch, round, e.highQc, me, S.sign me (e.timeoutMsg round q), e.entryTc⟩) e c e') :
      Makes n k (.timeouts round q (me :: rest)) e c e'
  | timeoutsRest {n k round q me rest e e₁ a c e'}
      (hfirst : Engine.onTimeoutMsg (Engine.enterRound H n) (Engine.localTimeout (Engine.enterRound H n) k)
        ⟨e.cfg.epoch, round, e.highQc, me, S.sign me (e.timeoutMsg round q), e.entryTc⟩ e = some (e₁, a))
      (hr : e₁.round = round) (h : Makes n k (.timeouts round q rest) e₁ c e') : Makes n k (.timeouts round q (me :: rest)) e c e'

end Calls

def Engine.core (e : Engine S) : Config × List (Hash × BlockInfo) × BlockInfo × Bool × List (Nat × TimeoutSet S) ×
    List ((Nat × Hash) × VoteSet S) × Nat :=
  (e.cfg, e.blocks, e.committed, e.finished, e.timeouts, e.votes, e.round)

variable {e' : Engine S}

theorem Engine.core_eq {e : Engine S} (h : e'.core = e.core) : e'.cfg = e.cfg ∧ e'.blocks = e.blocks ∧
    e'.committed = e.committed ∧ e'.finished = e.finished ∧ e'.timeouts = e.timeouts ∧ e'.votes = e.votes ∧
    e'.round = e.round := by
  simpa only [core, Prod.mk.injEq] using h

/-- A property of engines that every update of one keeps: it depends on the core of the engine only.
Blocks enter the tree as nil blocks or as `brings` allows, and votes of the rounds that `counts` allows,
among them the current one, are counted. -/
structure Stable (H : Hasher) (cfg : Config) (brings : BlockInfo → Prop) (counts : Nat → Prop) (I : Engine S → Prop) :
    Prop where
  cfg_eq : ∀ {e}, I e → e.cfg = cfg
  frame : ∀ {e e' : Engine S}, I e → e'.core = e.core → I e'
  enter : ∀ {e r}, I e → e.round < r → I { e with round := r }
  prune : ∀ {e}, I e → I e.prune
  commit : ∀ {e e' qc l}, I e → e.tryCommit qc = some (e', l) → I e'
  insert : ∀ {e b}, I e → e.blocks.lookup b.hash = none → e.committed.height < b.height →
    (cfg.endHeight < b.height ∧ b.hash = H.nilHash cfg.epoch b.parent b.round ∨ brings b) →
    I { e with blocks := put e.blocks b.hash b }
  join : ∀ {e} {t : Timeout S} (done : Bool), I e → t.Fits cfg → I (e.joined t done)
  count : ∀ {e v set set' cert}, I e → e.takesVote v = true → counts v.round →
    ((e.votes.lookup (v.round, v.block)).getD ⟨v.height, [], [], false⟩).add v (e.voteMsg v.round v.block) = some set →
    set.certify e.cfg.validators (e.voteMsg v.round v.block) = (set', cert) →
    I { e with votes := put e.votes (v.round, v.block) set' }
  current : ∀ {e}, I e → counts e.round

def Keeps (I : Engine S → Prop) (o : Outcome S) : Prop := ∀ e' l, o = some (e', l) → I e'

/-- A call leaves the property as it found it. -/
def Preserves (I : Engine S → Prop) : Rel S := fun e e' _ => I e → I e'

variable {H : Hasher} {cfg : Config} {brings : BlockInfo → Prop} {I : Engine S → Prop} {e : Engine S}

theorem Does.keeps {o : Outcome S} (ho : Does (Preserves I) e o) (h : I e) : Keeps I o :=
  fun e' l heq => (ho e' l heq).2 h

namespace Stable

variable (hI : Stable H cfg brings (fun _ => True) I)

include hI

theorem retryCommit {l : List (Effect S)} (h : I e) (heq : e.retryCommit = some (e', l)) : I e' := by
  unfold Engine.retryCommit at heq
  split at heq
  · exact hI.commit h heq
  · cases heq
    exact h

theorem recorded {qc : Qc S} {l : List (Effect S)} (h : I e) (hcommit : (e.recordQc qc).tryCommit qc = some (e', l)) :
    I e' :=
  hI.commit (e := e.recordQc qc) (hI.frame h rfl) hcommit

theorem entered {round : Nat} (tc : Option (Tc S)) (h : I e) (hr : e.round < round) : I (e.entered round tc) :=
  hI.frame (hI.enter h hr) rfl

theorem proposing (round : Nat) (h : I e) : I (e.proposing round) := hI.frame (hI.prune h) rfl

theorem carries : CarriesTimeouts H brings (fun _ => True) (Preserves I) (fun _ => Preserves I) where
  nothing := id
  trans h h' := h' ∘ h
  erase _ h := h
  stay hcommit _ h := hI.recorded h hcommit
  leave hcommit _ henter h := henter (hI.frame (hI.recorded h hcommit) rfl)
  enter _ h := h
  opens hr hretry hopens h := by
    have h₁ := hI.retryCommit (hI.entered _ h hr) hretry
    cases hopens with
    | finished => exact h₁
    | waits => exact hI.prune h₁
    | proposes => exact hI.proposing _ h₁
    | asks => exact hI.proposing _ h₁
  follow h h' := h' ∘ h
  insert hnew hlt hb h := hI.insert h hnew hlt (hI.cfg_eq h ▸ hb)
  count htake hadd hcert h := hI.count h htake trivial hadd hcert
  pend _ _ h := hI.frame h rfl
  validate _ := id
  utter _ _ := id
  join done ht h := hI.join done h (hI.cfg_eq h ▸ ht)
  quit h := hI.frame h rfl
  pass h := hI.frame h rfl
  speak _ := id
  retry heq h := hI.retryCommit h heq

end Stable

/-- What a call's arguments must be for the block tree to keep its property. -/
def Inner.Args (H : Hasher) (cfg : Config) (brings : BlockInfo → Prop) (counts : Nat → Prop) (e : Engine S) :
    Inner S → Prop
  | .vote v => counts v.round
  | .votes p _ _ => counts p.block.round
  | .proposal p => e.Stores H p → brings p.block
  | .proposed b _ _ _ => b.height ≤ cfg.endHeight → brings b
  | .join t => t.Fits cfg
  | _ => True

variable {c : Inner S} {n : Nat}

/-- Every call inside a call is made in a state with the property. -/
theorem Makes.keeps {k : Nat} {c' : Inner S} {e : Engine S} (hI : Stable H cfg brings (fun _ => True) I)
    (hm : Makes H n k c e c' e') (h : I e) (ha : c.Args H cfg brings (fun _ => True) e) :
    I e' ∧ c'.Args H cfg brings (fun _ => True) e' := by
  have hC := hI.carries
  have henter := Does.enterRound hC.toCarries
  induction hm with
  | self => exact ⟨h, ha⟩
  | qcCommit _ ih => exact ih (hI.frame h rfl) trivial
  | qcEnter hcommit hr _ ih => exact ih (hI.frame (hI.recorded h hcommit) rfl) trivial
  | tcQc _ ih => exact ih h trivial
  | tcEnter hqc hr _ ih => exact ih ((Does.processQc hC.toCarries (henter _)).keeps h _ _ hqc) trivial
  | enterCommit hr hq _ ih => exact ih (hI.entered _ h hr) trivial
  | enterPropose hr hretry hf hme hnil _ ih =>
    have h₁ := hI.retryCommit (hI.entered _ h hr) hretry
    have habove := of_decide_eq_true hnil
    rw [hI.cfg_eq h₁] at habove
    exact ih (hI.proposing _ h₁) fun hle => absurd hle (not_le.2 habove)
  | vote htake hadd hcert _ ih => exact ih (hI.count h htake trivial hadd hcert) trivial
  | votesFirst hme _ ih => exact ih h trivial
  | votesRest hvote _ ih =>
    split at hvote
    · exact ih ((Does.onVote hC.toCarries (henter _)).keeps h _ _ hvote) trivial
    · subst hvote
      exact ih h trivial
  | validated hp hr hlast hsafe hf _ ih => exact ih (hI.frame h rfl) trivial
  | consider hr hlast hf hsafe hnew _ ih => exact ih (hI.frame h rfl) trivial
  | proposalQc hcheck _ ih => exact ih ((Does.insertBlock hC.toCarries hcheck ha).2 h) trivial
  | proposalTc hcheck hqc htc _ ih =>
    have h₁ := (Does.insertBlock hC.toCarries hcheck ha).2 h
    exact ih ((Does.processQc hC.toCarries (henter _)).keeps h₁ _ _ hqc) trivial
  | proposalVote hcheck hqc htc _ ih =>
    have h₁ := (Does.insertBlock hC.toCarries hcheck ha).2 h
    have h₂ := (Does.processQc hC.toCarries (henter _) _ _ hqc).2 h₁
    exact ih ((Does.processTcOpt hC.toCarries (henter _) _ _ htc).2 h₂) trivial
  | proposedOwn hturn _ ih => exact ih h fun hs => ha (hI.cfg_eq h ▸ hs.2.2.2)
  | proposedVote hturn hown hask _ ih =>
    refine ih ((Does.onProposal hC.toCarries (henter _) (fun hs => ha ?_) (fun _ => trivial) _ _ hown).2 h) trivial
    exact hI.cfg_eq h ▸ hs.2.2.2
  | timeoutTc hcheck htc hlast _ ih => exact ih h trivial
  | timeoutQc hcheck htc _ ih => exact ih ((Does.processLastTc hC.toCarries (henter _)).keeps h _ _ htc) trivial
  | timeoutJoin hcheck htc hqc _ ih =>
    have h₁ := (Does.processLastTc hC.toCarries (henter _) _ _ htc).2 h
    exact ih ((Does.processQc hC.toCarries (henter _)).keeps h₁ _ _ hqc)
      (hI.cfg_eq h ▸ Engine.fits_of_checkTimeout hcheck)
  | joinTc htc _ ih => exact ih (hI.join true h ha) trivial
  | joinGiveUp hdone hnone hthird _ ih => exact ih (hI.join _ h ha) trivial
  | giveUp hme _ ih => exact ih (hI.frame h rfl) trivial
  | timeoutsFirst _ ih => exact ih h trivial
  | timeoutsRest hfirst hr _ ih =>
    exact ih ((Does.onTimeoutMsg hC (henter _) (Does.localTimeout hC (henter _) _) _ _ hfirst).2 h) trivial

/-- The call an input leads to, and the state it is made in. -/
inductive Begins (H : Hasher) : Event S → Engine S → Inner S → Engine S → Prop
  | start {e : Engine S} : Begins H .start e (.enter (e.round + 1) none) e
  | proposal {e : Engine S} {p} (hep : p.epoch = e.cfg.epoch) (hf : e.finished = false) :
      Begins H (.message (.proposal p)) e (.proposal p) e
  | vote {e : Engine S} {v} (hep : v.epoch = e.cfg.epoch) (hf : e.finished = false) : Begins H (.message (.vote v)) e (.vote v) e
  | timeoutMsg {e : Engine S} {t} (hep : t.epoch = e.cfg.epoch) (hf : e.finished = false) :
      Begins H (.message (.timeout t)) e (.timeout t) e
  | validated {e : Engine S} {b ok} : Begins H (.validated b ok) e (.validated b ok) e
  | proposed {e : Engine S} {b qc tc payload} : Begins H (.proposed b qc tc payload) e (.proposed b qc tc payload) e
  | timeout {e : Engine S} {r} (hr : r = e.round) (hf : e.finished = false) : Begins H (.timeout r) e .giveUp e
  | block {e : Engine S} {b qc} (hq : e.blockedCommit = some qc) : Begins H (.block b) e (.commit qc) (e.fetched b)
  | external {e : Engine S} {b qc} (hb : e.committed.height < b.height) (hqc : e.verifyQc qc = true) (hblock : qc.block = b.hash) :
      Begins H (.externalCommit b qc) e (.qc qc) { e with blocks := put e.blocks b.hash b, committed := b }

/-- What an input brings into the block tree and the vote sets keeps the property. -/
def Event.Admitted (H : Hasher) (cfg : Config) (brings : BlockInfo → Prop) (counts : Nat → Prop) (I : Engine S → Prop)
    (e : Engine S) : Event S → Prop
  | .message (.vote v) => counts v.round
  | .message (.proposal p) => e.Stores H p → brings p.block
  | .proposed b _ _ _ => b.height ≤ cfg.endHeight → brings b
  | .block b => I (e.fetched b)
  | .externalCommit b qc => e.committed.height < b.height → e.verifyQc qc = true → qc.block = b.hash →
      I { e with blocks := put e.blocks b.hash b, committed := b }
  | _ => True

variable {counts : Nat → Prop} {ev : Event S}

theorem Begins.keeps (h : I e) (hev : ev.Admitted H cfg brings counts I e)
    (hb : Begins H ev e c e') : I e' ∧ c.Args H cfg brings counts e' := by
  cases hb with
  | block hq => exact ⟨hev, trivial⟩
  | external hb hqc hblock => exact ⟨hev hb hqc hblock, trivial⟩
  | proposal => exact ⟨h, hev⟩
  | vote => exact ⟨h, hev⟩
  | proposed => exact ⟨h, hev⟩
  | _ => exact ⟨h, trivial⟩

theorem Keeps.on (hI : Stable H cfg brings (fun _ => True) I) (h : I e)
    (hev : ev.Admitted H cfg brings (fun _ => True) I e) : Keeps I (e.on H n ev) := by
  refine (Does.on hI.carries ?_).keeps h
  cases ev with
  | message m =>
    cases m with
    | proposal => exact hev
    | _ => trivial
  | proposed => exact fun hle => hev (hI.cfg_eq h ▸ hle)
  | block => exact fun _ => hev
  | externalCommit => exact fun hb hqc hblock _ => hev hb hqc hblock
  | _ => trivial

theorem Engine.resume_frame (cfg : Config) (p : Persisted S) :
    (Engine.resume cfg p).cfg = cfg ∧ (Engine.resume cfg p).timeouts = [] ∧ (Engine.resume cfg p).finished = false ∧
      (Engine.resume cfg p).votes = [] := by
  unfold Engine.resume
  split
  · exact ⟨rfl, rfl, rfl, rfl⟩
  · obtain ⟨blocks, hblocks⟩ := resumeBlocks_eq ((Engine.new cfg : Engine S).resumeCommitted p) p.blocks
    simp only [hblocks]
    unfold Engine.resumeCommitted
    split <;> exact ⟨rfl, rfl, rfl, rfl⟩

theorem Stable.resume (hI : Stable H cfg brings (fun _ => True) I) {p : Persisted S} (hnew : I (Engine.new cfg))
    (hcommitted : cfg.anchor.height < p.committed.height →
      I { (Engine.new cfg : Engine S) with blocks := [(p.committed.hash, p.committed)], committed := p.committed })
    (hput : ∀ e : Engine S, ∀ b ∈ p.blocks, I e → e.committed = ((Engine.new cfg : Engine S).resumeCommitted p).committed →
      e.committed.height < b.height → I { e with blocks := put e.blocks b.hash b })
    (hround : ∀ (e : Engine S) r, I e → I { e with round := r }) : I (Engine.resume cfg p) := by
  have hblocks : ∀ bs : List BlockInfo, (∀ b ∈ bs, b ∈ p.blocks) → ∀ e : Engine S, I e →
      e.committed = ((Engine.new cfg : Engine S).resumeCommitted p).committed → I (e.resumeBlocks bs) := by
    intro bs
    induction bs with
    | nil => exact fun _ _ h _ => h
    | cons b bs ih =>
      intro hbs e h heq
      simp only [Engine.resumeBlocks, List.foldl_cons]
      have hrest : ∀ b ∈ bs, b ∈ p.blocks := fun b hb => hbs b (List.mem_cons_of_mem _ hb)
      split
      case isTrue hlt => exact ih hrest _ (hput e b (hbs b List.mem_cons_self) h heq hlt) heq
      case isFalse => exact ih hrest e h heq
  unfold Engine.resume
  split
  · exact hnew
  · refine hI.frame (hround _ (max p.highQc.round p.lastVoted)
      (hblocks p.blocks (fun _ hb => hb) ((Engine.new cfg).resumeCommitted p) ?_ rfl)) rfl
    unfold Engine.resumeCommitted
    split
    case isTrue hlt => exact hI.frame (hcommitted hlt) rfl
    case isFalse => exact hnew

/-- An engine's states: it is created, called with inputs that `ok` allows, and restarted from what it
wrote where `may` allows. -/
inductive Lives (H : Hasher) (cfg : Config) (ok : Engine S → Event S → Prop) (may : Engine S → Prop) : Engine S → Prop
  | new : Lives H cfg ok may (Engine.new cfg)
  | reanchored (lastVoted : Nat) : Lives H cfg ok may (Engine.reanchored cfg lastVoted)
  | resume {e : Engine S} (h : Lives H cfg ok may e) (hmay : may e) : Lives H cfg ok may (Engine.resume cfg e.persisted)
  | call {e e' : Engine S} {n ev l} (h : Lives H cfg ok may e) (hok : ok e ev) (hon : e.on H n ev = some (e', l)) :
      Lives H cfg ok may e'

variable {may : Engine S → Prop} {ok : Engine S → Event S → Prop}

theorem Lives.keeps (hI : Stable H cfg brings (fun _ => True) I)
    (hnew : ∀ v, I (Engine.reanchored cfg v)) (hresume : ∀ e, I e → may e → I (Engine.resume cfg e.persisted))
    (hok : ∀ e ev, I e → ok e ev → ev.Admitted H cfg brings (fun _ => True) I e) (h : Lives H cfg ok may e) : I e := by
  induction h with
  | new => exact hnew 0
  | reanchored v => exact hnew v
  | resume _ hmay ih => exact hresume _ ih hmay
  | call _ hev hon ih => exact Keeps.on hI ih (hok _ _ ih hev) _ _ hon

theorem Lives.play [∀ e ev, Decidable (ok e ev)] {l : List (Effect S)} {evs : List (Event S)} (h : Lives H cfg ok may e)
    (heq : e.play H n ok evs = some (e', l)) : Lives H cfg ok may e' := by
  induction evs generalizing e l with
  | nil =>
    cases heq
    exact h
  | cons ev evs ih =>
    unfold Engine.play at heq
    split at heq
    case isFalse => cases heq
    case isTrue hok =>
      obtain ⟨e₁, a, b, hon, hrest, -⟩ := Outcome.andThen_eq_some heq
      exact ih (h.call hok hon) hrest

end Boltchain.Consensus
