import Boltchain.Consensus.Persistence

namespace Boltchain.Consensus

variable {S : Scheme} {ι : Type}

/-- A validator: its engine, the signatures it has made and the blocks it has committed, and what
is on disk with the signatures made before it was written. -/
structure Node (S : Scheme) where
  eng : Engine S
  signed : List (Nat × SignMsg)
  emitted : List BlockInfo
  disk : Option (Persisted S)
  durable : List (Nat × SignMsg)

namespace Node

def initial (cfg : Config) : Node S := ⟨Engine.new cfg, [], [], none, []⟩

/-- The node after a call, with the new state written to disk or not. -/
def after (nd : Node S) (save : Bool) (e : Engine S) (l : List (Effect S)) : Node S where
  eng := e
  signed := nd.signed ++ signs l
  emitted := nd.emitted ++ commits l
  disk := if save then some e.persisted else nd.disk
  durable := if save then nd.signed ++ signs l else nd.durable

def restart (nd : Node S) (cfg : Config) : Node S :=
  { nd with
    eng := match nd.disk with
      | none => Engine.new cfg
      | some p => Engine.resume cfg p
    signed := nd.durable }

end Node

def Action.leaves : Action S → Bool
  | .broadcast _ => true
  | .sendTo _ _ => true
  | .commit _ _ => true
  | .epochEnd _ _ => true
  | _ => false

/-- A committee: honest nodes `ι`, the seats each signs for, and the others, of less than 1/3 of
the weight. `valid` is what a block's hash commits to, `imports` whether blocks may become final
through another path. -/
structure Net (S : Scheme) (ι : Type) where
  H : Hasher
  base : Config
  me : ι → List Nat
  U : Unforgeable S fun i => ∃ ν, i ∈ me ν
  valid : BlockInfo → Prop
  imports : Prop
  byzantine : Finset Nat
  weight_lt : base.validators.fullTotal < 2 ^ 63
  disjoint : ∀ {i ν μ}, i ∈ me ν → i ∈ me μ → ν = μ
  honest_or : ∀ i < base.validators.len, (∃ ν, i ∈ me ν) ∨ i ∈ byzantine
  byzantine_lt : 3 * base.validators.mass byzantine < base.validators.fullTotal

namespace Net

variable (net : Net S ι)

def cfg (ν : ι) : Config := { net.base with me := net.me ν }

def initial (ν : ι) : Node S := .initial (net.cfg ν)

/-- The signatures that may have left the honest nodes: they are made durable before. -/
def durable (w : ι → Node S) : Knowledge := {x | ∃ ν, x ∈ (w ν).durable}

def known (w : ι → Node S) (ν : ι) : Knowledge := durable w ∪ {x | x ∈ (w ν).signed}

/-- Whatever comes from the network is made of signatures that left a node. -/
def Delivers (w : ι → Node S) (ν : ι) : Event S → Prop
  | .message m => net.U.ofEvent (durable w) (.message m)
  | ev => net.U.ofEvent (known w ν) ev

/-- The node's promises: it passes, proposes and fetches blocks under the places their hashes
commit to. -/
def Promises (e : Engine S) : Event S → Prop
  | .validated h ok => ok = true → ∀ p, e.pending.lookup h = some p →
      net.base.endHeight < p.block.height ∨ net.valid p.block
  | .proposed b _ _ _ => net.base.endHeight < b.height ∨ net.valid b
  | .block b => net.valid b
  | .externalCommit _ _ => net.imports
  | _ => True

/-- A node handles an input, and carries out what the outside world notices only after its new
state is on disk; or it crashes and restarts. `ok` restricts the inputs. -/
inductive Step [DecidableEq ι] (ok : Engine S → Event S → Prop) : (ι → Node S) → (ι → Node S) → Prop
  | handle {w : ι → Node S} (ν : ι) (n : Nat) (ev : Event S) (save : Bool) {e : Engine S}
      {l : List (Effect S)} (hdel : net.Delivers w ν ev) (hpr : net.Promises (w ν).eng ev)
      (hok : ok (w ν).eng ev) (hon : (w ν).eng.on net.H n ev = some (e, l))
      (hsave : save = false → ∀ a, .act a ∈ l → a.leaves = false) :
      Step ok w (Function.update w ν ((w ν).after save e l))
  | crash {w : ι → Node S} (ν : ι) : Step ok w (Function.update w ν ((w ν).restart (net.cfg ν)))

abbrev Run [DecidableEq ι] (ok : Engine S → Event S → Prop) : (ι → Node S) → Prop :=
  Relation.ReflTransGen (net.Step ok) net.initial

end Net

end Boltchain.Consensus
