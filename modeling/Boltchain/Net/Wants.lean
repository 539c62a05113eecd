import Mathlib

namespace Boltchain.Net.Bitswap

/-- A call that waits for blocks: a fetch of `cids` with those that have not arrived, or a probe of one peer. -/
inductive Call (Cid Peer : Type) where
  | fetch (cids : List Cid) (todo : Finset Cid)
  | probe (cid : Cid) (peer : Peer)

/-- What the calls on one `Bitswap` handle share: the wanted set, the blocks published so far, and the calls that run. -/
structure Handle (Cid Peer : Type) where
  wanted : Finset Cid
  arrivals : List (Peer × Cid)
  calls : Nat → Option (Call Cid Peer)

/-- A block of a message: the CID of its prefix and data, if its hash is known, and whether it verifies. -/
structure Incoming (Cid : Type) where
  cid : Option Cid
  verified : Bool

inductive Event (Cid Peer : Type) where
  /-- A fetch starts; `held` are the blocks that the blockstore has. -/
  | fetch (id : Nat) (cids : List Cid) (held : Cid → Bool)
  | probe (id : Nat) (cid : Cid) (peer : Peer)
  | message (peer : Peer) (payload : List (Incoming Cid))
  /-- A fetch takes a block from the arrivals channel. -/
  | receive (id : Nat) (peer : Peer) (cid : Cid)
  /-- A call returns: with what it waited for, at its deadline, or on an answer of the probed peer. -/
  | finish (id : Nat)
  /-- The future of a call is dropped. -/
  | cancel (id : Nat)

variable {Cid Peer : Type} [DecidableEq Cid]

/-- The CIDs that a call takes out of the wanted set when it returns. -/
def Call.removed : Call Cid Peer → Finset Cid
  | fetch cids _ => cids.toFinset
  | probe cid _ => {cid}

namespace Handle

def empty : Handle Cid Peer := ⟨∅, [], fun _ => none⟩

def accepted (s : Handle Cid Peer) (peer : Peer) (payload : List (Incoming Cid)) : List (Peer × Cid) :=
  payload.filterMap fun b => b.cid.bind fun c => if c ∈ s.wanted ∧ b.verified then some (peer, c) else none

def start (s : Handle Cid Peer) (id : Nat) (call : Call Cid Peer) (cids : Finset Cid) : Handle Cid Peer :=
  { s with wanted := s.wanted ∪ cids, calls := Function.update s.calls id (some call) }

/-- The end of a call. It takes its CIDs out of the wanted set, whoever else put them there. -/
def finish (s : Handle Cid Peer) (id : Nat) : Handle Cid Peer :=
  match s.calls id with
  | some call => { s with wanted := s.wanted \ call.removed, calls := Function.update s.calls id none }
  | none => s

def step [DecidableEq Peer] (s : Handle Cid Peer) : Event Cid Peer → Handle Cid Peer
  | .fetch id cids held =>
    let todo := (cids.filter fun c => !held c).toFinset
    if (s.calls id).isSome ∨ todo = ∅ then s else s.start id (.fetch cids todo) todo
  | .probe id cid peer => if (s.calls id).isSome then s else s.start id (.probe cid peer) {cid}
  | .message peer payload => { s with arrivals := s.arrivals ++ s.accepted peer payload }
  | .receive id peer cid =>
    match s.calls id with
    | some (.fetch cids todo) =>
      if (peer, cid) ∈ s.arrivals then
        { s with calls := Function.update s.calls id (some (.fetch cids (todo.erase cid))) }
      else s
    | _ => s
  | .finish id => s.finish id
  | .cancel id => { s with calls := Function.update s.calls id none }

/-- A block that a fetch waits for is wanted, so it is published whichever peer it comes from. -/
def Wanting (s : Handle Cid Peer) : Prop :=
  ∀ id cids todo, s.calls id = some (.fetch cids todo) → ∀ c ∈ todo,
    c ∈ s.wanted ∧ ∀ peer payload, ⟨some c, true⟩ ∈ payload → (peer, c) ∈ s.accepted peer payload

/-- A call that returns takes no CID out that another fetch still waits for. -/
def Spares (s : Handle Cid Peer) : Event Cid Peer → Prop
  | .finish id => ∀ call, s.calls id = some call → ∀ j, j ≠ id → ∀ cids todo, s.calls j = some (.fetch cids todo) →
      Disjoint todo call.removed
  | _ => True

def AllSpare [DecidableEq Peer] : Handle Cid Peer → List (Event Cid Peer) → Prop
  | _, [] => True
  | s, e :: es => s.Spares e ∧ AllSpare (s.step e) es

variable {s : Handle Cid Peer}

theorem wanting_iff :
    s.Wanting ↔ ∀ id cids todo, s.calls id = some (.fetch cids todo) → todo ⊆ s.wanted := by
  refine ⟨fun h id cids todo hcall c hc => (h id cids todo hcall c hc).1, fun h id cids todo hcall c hc => ?_⟩
  have hwanted := h id cids todo hcall hc
  refine ⟨hwanted, fun peer payload hmem => List.mem_filterMap.2 ⟨_, hmem, ?_⟩⟩
  rw [Option.bind_some, if_pos ⟨hwanted, rfl⟩]

theorem wanting_start (h : s.Wanting) {id : Nat} {call : Call Cid Peer} {new : Finset Cid}
    (hnew : ∀ cids todo, call = .fetch cids todo → todo ⊆ new) : (s.start id call new).Wanting := by
  rw [wanting_iff] at h ⊢
  intro j cids todo hcall
  unfold start at hcall
  dsimp only at hcall
  by_cases hj : j = id
  · subst hj
    rw [Function.update_self] at hcall
    exact (hnew cids todo (Option.some.inj hcall)).trans Finset.subset_union_right
  · rw [Function.update_of_ne hj] at hcall
    exact (h j cids todo hcall).trans Finset.subset_union_left

theorem wanting_of_calls {s' : Handle Cid Peer} (h : s.Wanting) (hwanted : s'.wanted = s.wanted)
    (hcalls : ∀ j cids todo, s'.calls j = some (.fetch cids todo) →
      ∃ todo', s.calls j = some (.fetch cids todo') ∧ todo ⊆ todo') : s'.Wanting := by
  rw [wanting_iff] at h ⊢
  intro j cids todo hcall
  obtain ⟨todo', hcall', hsub⟩ := hcalls j cids todo hcall
  rw [hwanted]
  exact hsub.trans (h j cids todo' hcall')

theorem wanting_finish_iff (h : s.Wanting) (id : Nat) :
    (s.finish id).Wanting ↔ s.Spares (.finish id) := by
  rw [wanting_iff] at h ⊢
  unfold finish
  cases hid : s.calls id with
  | none =>
    refine ⟨fun _ call hcall => ?_, fun _ => h⟩
    rw [hid] at hcall
    cases hcall
  | some call =>
    dsimp only
    constructor
    · intro hafter call' hcall' j hj cids todo hcall
      rw [hid] at hcall'
      cases hcall'
      have hleft := hafter j cids todo (by rw [Function.update_of_ne hj, hcall])
      exact Finset.disjoint_left.2 fun c hc => (Finset.mem_sdiff.1 (hleft hc)).2
    · intro hspares j cids todo hcall
      have hj : j ≠ id := by
        rintro rfl
        simp at hcall
      rw [Function.update_of_ne hj] at hcall
      exact Finset.subset_sdiff.2 ⟨h j cids todo hcall, hspares call hid j hj cids todo hcall⟩

theorem wanting_step_iff [DecidableEq Peer] (h : s.Wanting) (e : Event Cid Peer) :
    (s.step e).Wanting ↔ s.Spares e := by
  cases e with
  | fetch id cids held =>
    refine iff_of_true ?_ trivial
    simp only [step]
    split
    · exact h
    · refine wanting_start h fun cids todo heq => ?_
      cases heq
      rfl
  | probe id cid peer =>
    refine iff_of_true ?_ trivial
    simp only [step]
    split
    · exact h
    · exact wanting_start h fun cids todo heq => nomatch heq
  | message peer payload => exact iff_of_true (wanting_of_calls h rfl fun j cids todo hcall => ⟨todo, hcall, subset_rfl⟩) trivial
  | receive id peer cid =>
    refine iff_of_true ?_ trivial
    simp only [step]
    split
    case h_2 => exact h
    case h_1 cids todo hid =>
      split
      case isFalse => exact h
      case isTrue =>
        refine wanting_of_calls h rfl fun j cids' todo' hcall => ?_
        dsimp only at hcall
        by_cases hj : j = id
        · subst hj
          rw [Function.update_self] at hcall
          cases hcall
          exact ⟨todo, hid, Finset.erase_subset _ _⟩
        · rw [Function.update_of_ne hj] at hcall
          exact ⟨todo', hcall, subset_rfl⟩
  | finish id => exact wanting_finish_iff h id
  | cancel id =>
    refine iff_of_true (wanting_of_calls h rfl fun j cids todo hcall => ⟨todo, ?_, subset_rfl⟩) trivial
    simp only [step] at hcall
    by_cases hj : j = id
    · subst hj
      simp at hcall
    · rwa [Function.update_of_ne hj] at hcall

theorem wanting_foldl [DecidableEq Peer] {es : List (Event Cid Peer)} (h : s.Wanting) (hes : s.AllSpare es) :
    (es.foldl step s).Wanting := by
  induction es generalizing s with
  | nil => exact h
  | cons e es ih => exact ih ((wanting_step_iff h e).2 hes.1) hes.2

/-- While every call that returned spared the other fetches, all that is waited for is wanted, and the next step keeps
that exactly when it spares them too. -/
theorem active_fetch_wanted_iff [DecidableEq Peer] (es : List (Event Cid Peer)) (e : Event Cid Peer)
    (h : (empty : Handle Cid Peer).AllSpare es) :
    (es.foldl step empty).Wanting ∧ (((es ++ [e]).foldl step empty).Wanting ↔ (es.foldl step empty).Spares e) := by
  have hwanting : (es.foldl step (empty : Handle Cid Peer)).Wanting := wanting_foldl (fun _ _ _ hcall => nomatch hcall) h
  refine ⟨hwanting, ?_⟩
  rw [List.foldl_append]
  exact wanting_step_iff hwanting e

def twoFetches : List (Event Nat Nat) := [.fetch 0 [7] fun _ => false, .fetch 1 [7] fun _ => false]

theorem active_fetch_wanted_iff_two : (twoFetches.foldl step (empty : Handle Nat Nat)).Wanting :=
  (active_fetch_wanted_iff twoFetches (.cancel 0) ⟨trivial, trivial, trivial⟩).1

/-- The first fetch reaches its deadline; the second waits on, and its block is dropped when it comes. -/
theorem second_fetch_starves :
    let s := (twoFetches ++ [Event.finish 0]).foldl step (empty : Handle Nat Nat)
    s.calls 1 = some (.fetch [7] {7}) ∧ s.accepted 3 [⟨some 7, true⟩] = [] := ⟨rfl, rfl⟩

end Handle

end Boltchain.Net.Bitswap
