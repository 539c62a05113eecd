import Boltchain.Consensus.State

namespace Boltchain.Consensus

open Lib.Assoc

variable {S : Scheme}

/-- The engine after a call and the call's effects in order; `none` if the call does not return. -/
abbrev Outcome (S : Scheme) := Option (Engine S × List (Effect S))

namespace Outcome

def andThen (x : Outcome S) (f : Engine S → Outcome S) : Outcome S :=
  match x with
  | none => none
  | some (e, a) =>
    match f e with
    | none => none
    | some (e', b) => some (e', a ++ b)

end Outcome

/-- The block tree walk of a commit: the ancestors down to the committed block, a fork below it,
a block that is not there, or no end. -/
inductive Walk where
  | done (chain : List BlockInfo)
  | fork
  | missing (h : Hash)
  | diverges

namespace Engine

def prune (e : Engine S) : Engine S :=
  let keepFrom := e.round - 2
  let blocks := e.blocks.filter fun x => e.committed.height ≤ x.2.height
  { e with
    votes := e.votes.filter fun x => keepFrom ≤ x.1.1 + 1
    timeouts := e.timeouts.filter fun x => keepFrom ≤ x.1 + 1
    timedOut := e.timedOut.filter fun r => keepFrom ≤ r + 1
    proposed := e.proposed.filter fun r => keepFrom ≤ r + 1
    pending := e.pending.filter fun x => e.committed.height < x.2.block.height
    blocks := blocks
    qcs := e.qcs.filter fun x => (blocks.lookup x.1).isSome }

def laterQc : Option (Qc S) → Qc S → Qc S
  | none, qc => qc
  | some q, qc => if q.round < qc.round then qc else q

def blockOn (e : Engine S) (qc : Qc S) (missing : Hash) : Engine S × List (Effect S) :=
  let blocked := some (laterQc e.blockedCommit qc)
  if e.requested.contains missing then ({ e with blockedCommit := blocked }, [])
  else ({ e with blockedCommit := blocked, requested := missing :: e.requested },
    [.act (.fetchBlock missing)])

/-- The walk from `cur` to the committed block. A walk longer than the block tree has met a
block twice and never ends. -/
def walk (e : Engine S) : Nat → BlockInfo → List BlockInfo → Walk
  | 0, _, _ => .diverges
  | n + 1, cur, chain =>
    if cur.parent = e.committed.hash then .done chain
    else
      match e.blocks.lookup cur.parent with
      | some parent =>
        if e.committed.height < parent.height then e.walk n parent (parent :: chain) else .fork
      | none => .missing cur.parent

def nilRounds (e : Engine S) : Nat → BlockInfo → List Nat → Option (List Nat × BlockInfo)
  | 0, _, _ => none
  | n + 1, cur, rounds =>
    if e.cfg.endHeight < cur.height then
      match e.blocks.lookup cur.parent with
      | some parent => e.nilRounds n parent (cur.round :: rounds)
      | none => none
    else some (rounds, cur)

def proofFor (e : Engine S) (p b : BlockInfo) (pqc bqc : Qc S) : Option (CommitProof S) :=
  if b.height ≤ e.cfg.endHeight then some ⟨pqc, bqc, [], [], p.hash, p.height⟩
  else
    match e.nilRounds (e.blocks.length + 1) p [b.round] with
    | none => none
    | some (rounds, cur) => some ⟨pqc, bqc, [], rounds, cur.hash, cur.height⟩

/-- Moves the committed pointer to `p` after the walk collected `chain`. -/
def commitChain (e : Engine S) (p b : BlockInfo) (pqc qc : Qc S) (chain : List BlockInfo) :
    Outcome S :=
  let e := { e with
    committed := p
    blockedCommit := e.blockedCommit.filter fun q => qc.round < q.round }
  let real := chain.filter fun x => x.height ≤ e.cfg.endHeight
  match e.proofFor p b pqc qc with
  | none => none
  | some proof =>
    let commit := if real.isEmpty then [] else [.act (.commit real proof)]
    if e.cfg.endHeight ≤ p.height then
      some ({ e with finished := true },
        commit ++ [.act (.epochEnd ((e.blocks.lookup proof.committed).getD p) proof)])
    else some (e, commit)

/-- Two-chain commit: `qc` certifies B; if B's parent P was certified in B.round - 1, P is final. -/
def tryCommit (e : Engine S) (qc : Qc S) : Outcome S :=
  if e.finished then some (e, [])
  else
    match e.blocks.lookup qc.block with
    | none => some (e.blockOn qc qc.block)
    | some b =>
      match e.blocks.lookup b.parent with
      | none => if e.committed.height + 1 < b.height then some (e.blockOn qc b.parent) else some (e, [])
      | some p =>
        if p.round + 1 ≠ b.round ∨ p.height ≤ e.committed.height then some (e, [])
        else
          match e.qcs.lookup p.hash with
          | none => some (e, [])
          | some pqc =>
            match e.walk (e.blocks.length + 1) p [p] with
            | .diverges => none
            | .fork => some (e, [])
            | .missing h => some (e.blockOn qc h)
            | .done chain => e.commitChain p b pqc qc chain

def recordQc (e : Engine S) (qc : Qc S) : Engine S :=
  { e with
    qcs := if (e.qcs.lookup qc.block).isSome then e.qcs else put e.qcs qc.block qc
    highQc := if e.highQc.round < qc.round then qc else e.highQc }

def safeToVote (p : Proposal S) : Bool :=
  if p.qc.round + 1 = p.block.round then true
  else
    match p.tc with
    | some tc => tc.round + 1 == p.block.round && decide (tc.maxQcRound ≤ p.qc.round)
    | none => false

def checkProposal (H : Hasher) (e : Engine S) (p : Proposal S) : Bool :=
  let b := p.block
  p.epoch == e.cfg.epoch
    && p.proposer == e.leader b.round
    && b.round != 0
    && b.parent == p.qc.block
    && b.height == p.qc.height + 1
    && decide (p.qc.round < b.round)
    && (!e.isNilHeight b.height
      || (b.hash == H.nilHash e.cfg.epoch b.parent b.round && p.payload.isEmpty))
    && S.verify p.proposer (e.proposalMsg H b.round b.hash p.payload) p.sig
    && e.verifyQc p.qc
    && (match p.tc with
      | some tc => tc.round + 1 == b.round && e.verifyTc tc
      | none => true)

def insertBlock (e : Engine S) (b : BlockInfo) : Engine S :=
  if (e.blocks.lookup b.hash).isNone ∧ e.committed.height < b.height then
    { e with blocks := put e.blocks b.hash b }
  else e

end Engine

namespace VoteSet

/-- Adds a vote; `none` if it changes nothing. Two different signatures of one signer are
checked at once, so that a forged vote cannot shut out the real one. -/
def add (set : VoteSet S) (v : Vote S) (msg : SignMsg) : Option (VoteSet S) :=
  if set.done || set.height != v.height || (set.sigs.lookup v.signer).isSome then none
  else
    match set.pending.lookup v.signer with
    | some s =>
      if s = v.sig then none
      else
        let pending := del set.pending v.signer
        match [s, v.sig].find? fun sig => S.verify v.signer msg sig with
        | some sig => some { set with sigs := put set.sigs v.signer sig, pending := pending }
        | none => some { set with pending := pending }
    | none => some { set with pending := put set.pending v.signer v.sig }

def signers (set : VoteSet S) : List Nat :=
  (keys set.sigs ++ keys set.pending).insertionSort (· ≤ ·)

def sigOf (set : VoteSet S) (i : Nat) : Option S.Sig := (set.sigs.lookup i).or (set.pending.lookup i)

/-- Checks the pending votes one by one and drops the invalid ones. -/
def check (set : VoteSet S) (msg : SignMsg) : VoteSet S :=
  { set with
    sigs := (set.pending.filter fun x => S.verify x.1 msg x.2) ++ set.sigs
    pending := [] }

/-- The signers and aggregate of a quorum, once the collected votes hold one: all of them if
their aggregate verifies, otherwise those that verify alone. -/
def certify (set : VoteSet S) (validators : ValidatorSet) (msg : SignMsg) :
    VoteSet S × Option (List Nat × S.Agg) :=
  if !validators.isQuorum (validators.weightOf set.signers) then (set, none)
  else
    let agg := (S.aggregate (set.signers.filterMap set.sigOf)).filter fun a =>
      set.pending.isEmpty || S.verifyAggregate set.signers msg a
    match agg with
    | some a => ({ set with done := true }, some (set.signers, a))
    | none =>
      let set := set.check msg
      if !validators.isQuorum (validators.weightOf set.signers) then (set, none)
      else
        match S.aggregate (set.signers.filterMap set.sigOf) with
        | some a => ({ set with done := true }, some (set.signers, a))
        | none => (set, none)

end VoteSet

namespace Engine

variable (H : Hasher) (enter : Nat → Option (Tc S) → Engine S → Outcome S)

/-- Records a QC: may raise the high QC, commit, and advance the round. -/
def processQc (qc : Qc S) (e : Engine S) : Outcome S :=
  ((e.recordQc qc).tryCommit qc).andThen fun e =>
    if e.round ≤ qc.round then enter (qc.round + 1) none { e with consecutiveTimeouts := 0 }
    else some (e, [])

def processTc (tc : Tc S) (e : Engine S) : Outcome S :=
  (processQc enter tc.highQc e).andThen fun e =>
    if e.round ≤ tc.round then enter (tc.round + 1) (some tc) e else some (e, [])

def onVote (v : Vote S) (e : Engine S) : Outcome S :=
  if !e.isMe (e.leader (v.round + 1)) || v.epoch != e.cfg.epoch
      || decide (e.cfg.validators.len ≤ v.signer) || decide (v.round + 2 < e.round) then some (e, [])
  else
    let msg := e.voteMsg v.round v.block
    let set := (e.votes.lookup (v.round, v.block)).getD ⟨v.height, [], [], false⟩
    match set.add v msg with
    | none => some (e, [])
    | some set =>
      let (set, cert) := set.certify e.cfg.validators msg
      let e := { e with votes := put e.votes (v.round, v.block) set }
      match cert with
      | none => some (e, [])
      | some (signers, agg) =>
        processQc enter ⟨e.cfg.epoch, v.round, v.block, set.height,
          Bitmap.encode signers e.cfg.validators.len, some agg⟩ e

/-- Signs the vote for `p` with each seat in turn; a vote to an own seat is counted at once.
`last` is the last round voted in before. -/
def voteAll (p : Proposal S) (last : Nat) : List Nat → Engine S → Outcome S
  | [], e => some (e, [])
  | me :: rest, e =>
    let r := p.block.round
    let next := e.leader (r + 1)
    let msg := e.voteMsg r p.block.hash
    let vote : Vote S := ⟨e.cfg.epoch, r, p.block.hash, p.block.height, me, S.sign me msg⟩
    let signed : Effect S := .sign me msg { e.stamp with lastVoted := last, qc := p.qc.round }
    let sent : Outcome S :=
      if e.isMe next then Outcome.andThen (some (e, [signed])) (onVote enter vote)
      else some (e, [signed, .act (.sendTo next (.vote vote))])
    sent.andThen (voteAll p last rest)

def onValidated (block : Hash) (valid : Bool) (e : Engine S) : Outcome S :=
  match e.pending.lookup block with
  | none => some (e, [])
  | some p =>
    let e := { e with pending := del e.pending block }
    let r := p.block.round
    if !valid then some (e, [])
    else if r ≠ e.round ∨ r ≤ e.lastVoted ∨ safeToVote p = false ∨ e.finished = true then some (e, [])
    else if e.cfg.me.isEmpty then some (e, [])
    else voteAll enter p e.lastVoted e.cfg.me { e with lastVoted := r }

/-- The end of `on_proposal`, after its certificates were processed: hands the block to the node
for validation, or votes for a nil block at once. -/
def considerVote (p : Proposal S) (nil : Bool) (e : Engine S) : Outcome S :=
  let b := p.block
  if b.round ≠ e.round ∨ b.round ≤ e.lastVoted ∨ e.cfg.me.isEmpty = true ∨ e.finished = true then
    some (e, [])
  else if !safeToVote p then some (e, [])
  else if (e.pending.lookup b.hash).isSome then some (e, [])
  else
    let e := { e with pending := put e.pending b.hash p }
    if nil then onValidated enter b.hash true e else some (e, [.act (.validate p)])

def processTcOpt (tc : Option (Tc S)) (e : Engine S) : Outcome S :=
  match tc with
  | some tc => processTc enter tc e
  | none => some (e, [])

def onProposal (p : Proposal S) (e : Engine S) : Outcome S :=
  if !e.checkProposal H p then some (e, [])
  else
    let nil := e.isNilHeight p.block.height
    (processQc enter p.qc (e.insertBlock p.block)).andThen fun e =>
      (processTcOpt enter p.tc e).andThen (considerVote enter p nil)

def isValidate (h : Hash) : Effect S → Bool
  | .act (.validate x) => x.block.hash == h
  | _ => false

def ownProposal (H : Hasher) (e : Engine S) (block : BlockInfo) (qc : Qc S) (tc : Option (Tc S))
    (payload : Bytes) : Proposal S :=
  let me := e.leader block.round
  ⟨e.cfg.epoch, block, qc, tc, me, payload,
    S.sign me (e.proposalMsg H block.round block.hash payload)⟩

/-- The node built the block this node was asked to propose. Its own block needs no validation. -/
def onProposed (block : BlockInfo) (qc : Qc S) (tc : Option (Tc S)) (payload : Bytes) (e : Engine S) :
    Outcome S :=
  let me := e.leader block.round
  if block.round ≠ e.round ∨ e.isMe me = false ∨ e.finished = true then some (e, [])
  else
    let p := e.ownProposal H block qc tc payload
    match onProposal H enter p e with
    | none => none
    | some (e', out) =>
      let out := .sign me (e.proposalMsg H block.round block.hash payload) e.stamp
        :: .act (.broadcast (.proposal p)) :: out
      if out.any (isValidate block.hash) then
        Outcome.andThen (some (e', out.eraseP (isValidate block.hash)))
          (onValidated enter block.hash true)
      else some (e', out)

/-- Enters `round`; the number bounds how many rounds one call can go through. -/
def enterRound (H : Hasher) : Nat → Nat → Option (Tc S) → Engine S → Outcome S
  | 0, _, _, _ => none
  | n + 1, round, tc, e =>
    if round ≤ e.round then some (e, [])
    else
      let e := { e with round := round, entryTc := tc, requested := [] }
      Outcome.andThen (match e.blockedCommit with
        | some qc => e.tryCommit qc
        | none => some (e, [])) fun e =>
      if e.finished then some (e, [])
      else
        let sched := [.act (.scheduleTimeout round e.timeoutMs)]
        let e := e.prune
        if e.isMe (e.leader round) && !e.proposed.contains round then
          let e := { e with proposed := round :: e.proposed }
          let qc := e.highQc
          if e.isNilHeight (qc.height + 1) then
            let block : BlockInfo := ⟨H.nilHash e.cfg.epoch qc.block round, qc.block, round, qc.height + 1⟩
            Outcome.andThen (some (e, sched)) (onProposed H (enterRound H n) block qc e.entryTc [])
          else some (e, sched ++ [.act (.propose round qc e.entryTc)])
        else some (e, sched)

def start (H : Hasher) (n : Nat) (e : Engine S) : Outcome S := enterRound H n (e.round + 1) none e

def onBlock (block : BlockInfo) (e : Engine S) : Outcome S :=
  let e := { e with
    requested := e.requested.filter (· ≠ block.hash)
    blocks := if e.committed.height < block.height then put e.blocks block.hash block else e.blocks }
  match e.blockedCommit with
  | some qc => e.tryCommit qc
  | none => some (e, [])

def checkTimeout (e : Engine S) (t : Timeout S) : Bool :=
  t.epoch == e.cfg.epoch
    && decide (t.signer < e.cfg.validators.len)
    && decide (e.round ≤ t.round + 2)
    && decide (t.highQc.round < t.round)
    && S.verify t.signer (e.timeoutMsg t.round t.highQc.round) t.sig
    && e.verifyQc t.highQc

def joinTimeout (set : TimeoutSet S) (t : Timeout S) : TimeoutSet S :=
  { set with
    highQc := if set.highQc.round < t.highQc.round then t.highQc else set.highQc
    entries := put set.entries t.signer (t.highQc.round, t.sig) }

/-- A timeout of another validator or of an own seat; `join` gives up on the current round. -/
def onTimeoutMsg (join : Engine S → Outcome S) (t : Timeout S) (e : Engine S) : Outcome S :=
  if !e.checkTimeout t then some (e, [])
  else
    Outcome.andThen (match t.lastTc with
      | some tc =>
        if tc.round + 1 = t.round ∧ e.round ≤ tc.round ∧ e.verifyTc tc = true then
          processTc enter tc e
        else some (e, [])
      | none => some (e, [])) fun e =>
    Outcome.andThen (processQc enter t.highQc e) fun e =>
    let set := (e.timeouts.lookup t.round).getD ⟨[], t.highQc, false⟩
    if set.done then some (e, [])
    else
      let set := joinTimeout set t
      let weight := e.cfg.validators.weightOf (keys set.entries)
      if e.cfg.validators.isQuorum weight then
        let e := { e with timeouts := put e.timeouts t.round { set with done := true } }
        processTc enter ⟨e.cfg.epoch, t.round, set.highQc,
          set.entries.insertionSort fun a b => a.1 ≤ b.1⟩ e
      else
        let e := { e with timeouts := put e.timeouts t.round set }
        if e.cfg.validators.isOneThird weight && t.round == e.round && !e.timedOut.contains t.round then
          join e
        else some (e, [])

/-- Signs and broadcasts the timeout of `round` for each seat, until they complete a TC. -/
def timeoutAll (join : Engine S → Outcome S) (round highQcRound : Nat) : List Nat → Engine S → Outcome S
  | [], e => some (e, [])
  | me :: rest, e =>
    let msg := e.timeoutMsg round highQcRound
    let t : Timeout S := ⟨e.cfg.epoch, round, e.highQc, me, S.sign me msg, e.entryTc⟩
    Outcome.andThen (some (e, [.sign me msg e.stamp, .act (.broadcast (.timeout t))])) fun e =>
    Outcome.andThen (onTimeoutMsg enter join t e) fun e =>
    if e.round ≠ round then some (e, []) else timeoutAll join round highQcRound rest e

def localTimeout : Nat → Engine S → Outcome S
  | 0, _ => none
  | n + 1, e =>
    let round := e.round
    let e := { e with
      lastVoted := max e.lastVoted round
      consecutiveTimeouts := e.consecutiveTimeouts + 1 }
    let sched := [.act (.scheduleTimeout round e.timeoutMs)]
    if e.cfg.me.isEmpty then some (e, sched)
    else
      let e := { e with timedOut := if e.timedOut.contains round then e.timedOut else round :: e.timedOut }
      Outcome.andThen (some (e, sched)) (timeoutAll enter (localTimeout n) round e.highQc.round e.cfg.me)

def onTimeout (H : Hasher) (n round : Nat) (e : Engine S) : Outcome S :=
  if round ≠ e.round ∨ e.finished = true then some (e, [])
  else localTimeout (enterRound H n) n e

def onMessage (H : Hasher) (n : Nat) (msg : Message S) (e : Engine S) : Outcome S :=
  if msg.epoch ≠ e.cfg.epoch ∨ e.finished = true then some (e, [])
  else
    match msg with
    | .proposal p => onProposal H (enterRound H n) p e
    | .vote v => onVote (enterRound H n) v e
    | .timeout t => onTimeoutMsg (enterRound H n) (localTimeout (enterRound H n) n) t e

def onExternalCommit (H : Hasher) (n : Nat) (block : BlockInfo) (qc : Qc S) (e : Engine S) : Outcome S :=
  if block.height ≤ e.committed.height ∨ e.verifyQc qc = false ∨ qc.block ≠ block.hash then some (e, [])
  else
    processQc (enterRound H n) qc
      { e with blocks := put e.blocks block.hash block, committed := block }

end Engine

inductive Event (S : Scheme) where
  | start
  | message (m : Message S)
  | validated (block : Hash) (valid : Bool)
  | proposed (block : BlockInfo) (qc : Qc S) (tc : Option (Tc S)) (payload : Bytes)
  | timeout (round : Nat)
  | block (b : BlockInfo)
  | externalCommit (b : BlockInfo) (qc : Qc S)

def Engine.on (H : Hasher) (n : Nat) (ev : Event S) (e : Engine S) : Outcome S :=
  match ev with
  | .start => e.start H n
  | .message m => e.onMessage H n m
  | .validated h ok => onValidated (enterRound H n) h ok e
  | .proposed b qc tc payload => onProposed H (enterRound H n) b qc tc payload e
  | .timeout r => e.onTimeout H n r
  | .block b => e.onBlock b
  | .externalCommit b qc => e.onExternalCommit H n b qc

end Boltchain.Consensus
