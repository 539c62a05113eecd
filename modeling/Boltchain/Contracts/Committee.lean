import Boltchain.Consensus.Evidence
import Boltchain.Contracts.Registry

namespace Boltchain.Contracts

open Boltchain.Consensus (Bytes toBeBytes ofBeBytes)

structure Committee where
  /-- Validator ids, in the order of their first seat. -/
  members : List Nat
  /-- Seats per member. -/
  weights : List Nat
  /-- The member at each seat, in leader order. -/
  seats : List Nat
deriving DecidableEq, Repr

namespace Committee

def empty : Committee := ⟨[], [], []⟩

def equal (ids : List Nat) : Committee := ⟨ids, ids.map fun _ => 1, List.range ids.length⟩

def cumulative : Nat → List Nat → List Nat
  | _, [] => []
  | total, s :: stakes => (total + s) :: cumulative (total + s) stakes

def pick (ids stakes : List Nat) (r : Nat) : Option Nat :=
  ids[(cumulative 0 stakes).findIdx (r < ·)]?

def addSeat (c : Committee) (id : Nat) : Committee :=
  match c.members.idxOf? id with
  | some m => { c with weights := c.weights.modify m (· + 1), seats := c.seats ++ [m] }
  | none =>
    { members := c.members ++ [id], weights := c.weights ++ [1], seats := c.seats ++ [c.members.length] }

def draw (keccak256 : Bytes → Nat) (seed epoch i total : Nat) : Nat :=
  keccak256 (toBeBytes 32 seed ++ (toBeBytes 8 epoch ++ toBeBytes 4 i)) % total

/-- Samples `size` seats with replacement, each validator in proportion to its stake. Stakes are
16-byte words and ids 4-byte ones, so the sum of all stakes does not wrap. -/
def sample (keccak256 : Bytes → Nat) (seed epoch : Nat) (ids stakes : List Nat) (size : Nat) : Option Committee :=
  if stakes.sum = 0 then
    some empty
  else
    (List.range size).foldlM (fun c i => do
      let id ← pick ids stakes (draw keccak256 seed epoch i stakes.sum)
      some (c.addSeat id)) empty

def seatsBytes (c : Committee) : Bytes := c.seats.flatMap (toBeBytes 2)

/-- The seats of a stored committee; an odd last byte is dropped. -/
def seatsOf : Bytes → List Nat
  | a :: b :: rest => ofBeBytes [a, b] :: seatsOf rest
  | _ => []

def fromParts (c : StoredCommittee) : Committee := ⟨c.members, c.weights, seatsOf c.seats⟩

def stored (c : Committee) : StoredCommittee := ⟨c.members, c.weights, c.seatsBytes⟩

def isEmpty (c : Committee) : Bool := c.members.isEmpty

theorem addSeat_members_ne_nil (c : Committee) (id : Nat) : (c.addSeat id).members ≠ [] := by
  unfold addSeat
  split
  · intro h
    have h : c.members = [] := h
    simp_all
  · simp

theorem mem_addSeat {c : Committee} {id j : Nat} (h : j ∈ (c.addSeat id).members) : j ∈ c.members ∨ j = id := by
  unfold addSeat at h
  split at h
  · exact .inl h
  · simpa using h

theorem length_cumulative (total : Nat) (stakes : List Nat) : (cumulative total stakes).length = stakes.length := by
  induction stakes generalizing total with
  | nil => rfl
  | cons s stakes ih => rw [cumulative, List.length_cons, ih, List.length_cons]

theorem exists_cumulative {total r : Nat} {stakes : List Nat} (hr : r < total + stakes.sum) (h : stakes ≠ []) :
    ∃ c ∈ cumulative total stakes, r < c := by
  induction stakes generalizing total with
  | nil => exact absurd rfl h
  | cons s stakes ih =>
    rw [List.sum_cons] at hr
    cases stakes with
    | nil =>
      rw [List.sum_nil] at hr
      exact ⟨total + s, List.mem_cons_self, hr⟩
    | cons s' stakes =>
      obtain ⟨c, hc, hlt⟩ := @ih (total + s) (by omega) (List.cons_ne_nil s' stakes)
      exact ⟨c, List.mem_cons_of_mem (total + s) hc, hlt⟩

theorem exists_pick {ids stakes : List Nat} {r : Nat} (hl : ids.length = stakes.length) (hr : r < stakes.sum) :
    ∃ id ∈ ids, pick ids stakes r = some id := by
  have hne : stakes ≠ [] := by
    rintro rfl
    exact Nat.not_lt_zero r hr
  obtain ⟨c, hc, hlt⟩ := @exists_cumulative 0 r stakes (by omega) hne
  have hidx : (cumulative 0 stakes).findIdx (r < ·) < ids.length := by
    rw [hl, ← length_cumulative 0 stakes]
    exact List.findIdx_lt_length_of_exists ⟨c, hc, decide_eq_true hlt⟩
  exact ⟨_, List.getElem_mem hidx, List.getElem?_eq_getElem hidx⟩

theorem exists_sample (keccak256 : Bytes → Nat) (seed epoch : Nat) {ids stakes : List Nat} (size : Nat)
    (hl : ids.length = stakes.length) :
    ∃ c, sample keccak256 seed epoch ids stakes size = some c ∧ (∀ id ∈ c.members, id ∈ ids) ∧
      (0 < stakes.sum → 0 < size → c.members ≠ []) := by
  unfold sample
  by_cases hz : stakes.sum = 0
  · rw [if_pos hz]
    exact ⟨empty, rfl, fun _ h => absurd h (List.not_mem_nil), fun h => absurd hz h.ne'⟩
  rw [if_neg hz]
  -- the seats are given one after the other
  induction size with
  | zero => exact ⟨empty, rfl, fun _ h => absurd h (List.not_mem_nil), fun _ h => absurd h (Nat.lt_irrefl 0)⟩
  | succ n ih =>
    obtain ⟨c, hc, hin, -⟩ := ih
    obtain ⟨id, hid, hpick⟩ := exists_pick hl (Nat.mod_lt (keccak256 (toBeBytes 32 seed ++
      (toBeBytes 8 epoch ++ toBeBytes 4 n))) (Nat.pos_of_ne_zero hz))
    refine ⟨c.addSeat id, ?_, ?_, fun _ _ => addSeat_members_ne_nil c id⟩
    · rw [List.range_succ, List.foldlM_append, hc]
      simp [draw, hpick]
    · intro j hj
      obtain hj | rfl := mem_addSeat hj
      · exact hin j hj
      · exact hid

end Committee

end Boltchain.Contracts
