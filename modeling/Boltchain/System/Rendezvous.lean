import Boltchain.Consensus.Evidence
import Boltchain.Lib.Smallest

namespace Boltchain.System

open Consensus (Bytes Hash toBeBytes)
open Lib.Smallest

def historyReplication : Nat := 16

def storageReplication : Nat := 16

section

variable (keccak256 : Bytes → Hash) (indexCid : Bytes)

/-- The place of an id in the order for a CID: by its hash, then by the id. -/
def score (id : Nat) : Nat ×ₗ Nat := toLex (keccak256 (indexCid ++ toBeBytes 4 id), id)

def closest (ids : List Nat) (n : Nat) : List Nat :=
  (smallest n (ids.map (score keccak256 indexCid))).map fun x => (ofLex x).2

/-- The providers that keep the data of an epoch: validators first, then storage providers. -/
def assignees (validators storage : List Nat) : List Nat :=
  closest keccak256 indexCid validators historyReplication ++ closest keccak256 indexCid storage storageReplication

end

variable {keccak256 : Bytes → Hash} {indexCid : Bytes} {ids ids' : List Nat} {n : Nat}

theorem score_injective : Function.Injective (score keccak256 indexCid) := by
  intro a b h
  exact congrArg (fun x => (ofLex x).2) h

theorem score_closest (ids : List Nat) (n : Nat) :
    (closest keccak256 indexCid ids n).map (score keccak256 indexCid) = smallest n (ids.map (score keccak256 indexCid)) := by
  rw [closest, List.map_map]
  refine (List.map_congr_left fun x hx => ?_).trans (List.map_id _)
  have hmem : x ∈ ids.map (score keccak256 indexCid) := (List.mergeSort_perm _ _).mem_iff.1 (List.mem_of_mem_take hx)
  obtain ⟨id, -, rfl⟩ := List.mem_map.1 hmem
  rfl

variable {id : Nat}

theorem mem_closest : id ∈ closest keccak256 indexCid ids n ↔
    score keccak256 indexCid id ∈ smallest n (ids.map (score keccak256 indexCid)) := by
  rw [← score_closest, List.mem_map_of_injective score_injective]

theorem closest_of_perm (h : ids.Perm ids') : closest keccak256 indexCid ids n = closest keccak256 indexCid ids' n := by
  rw [closest, closest, smallest_of_perm (h.map _)]

theorem score_erase (ids : List Nat) (id : Nat) : (ids.erase id).map (score keccak256 indexCid) =
    (ids.map (score keccak256 indexCid)).erase (score keccak256 indexCid id) := List.map_erase score_injective ids

theorem closest_erase_of_notMem (h : id ∉ closest keccak256 indexCid ids n) :
    closest keccak256 indexCid (ids.erase id) n = closest keccak256 indexCid ids n := by
  rw [mem_closest] at h
  rw [closest, closest, score_erase, smallest_erase_of_notMem h]

theorem closest_erase_of_mem (h : id ∈ closest keccak256 indexCid ids n) :
    ∃ new, new.length ≤ 1 ∧ new ⊆ ids.erase id ∧
      closest keccak256 indexCid (ids.erase id) n = (closest keccak256 indexCid ids n).erase id ++ new := by
  obtain ⟨new, hlen, hsub, heq⟩ := smallest_erase_of_mem (mem_closest.1 h)
  rw [← score_erase] at hsub heq
  obtain ⟨new', hnew', rfl⟩ : ∃ new', new' ⊆ ids.erase id ∧ new'.map (score keccak256 indexCid) = new := by
    refine ⟨new.map fun x => (ofLex x).2, fun y hy => ?_, ?_⟩
    · obtain ⟨x, hx, rfl⟩ := List.mem_map.1 hy
      obtain ⟨z, hz, rfl⟩ := List.mem_map.1 (hsub hx)
      exact hz
    · rw [List.map_map]
      refine (List.map_congr_left fun x hx => ?_).trans (List.map_id _)
      obtain ⟨z, -, rfl⟩ := List.mem_map.1 (hsub hx)
      rfl
  refine ⟨new', by simpa using hlen, hnew', ?_⟩
  have hinj : Function.Injective (score keccak256 indexCid) := score_injective
  refine List.map_injective_iff.2 hinj ?_
  rw [score_closest, List.map_append, score_erase (closest keccak256 indexCid ids n), score_closest, heq]

theorem closest_append (h : ids.Nodup) (new : List Nat) :
    ((closest keccak256 indexCid ids n).filter (· ∉ closest keccak256 indexCid (new ++ ids) n)).length ≤ new.length ∧
      ∀ id ∈ closest keccak256 indexCid (new ++ ids) n, id ∈ new ∨ id ∈ closest keccak256 indexCid ids n := by
  have hinj : Function.Injective (score keccak256 indexCid) := score_injective
  obtain ⟨hlost, hgained⟩ := smallest_append (n := n) (h.map hinj) (new.map (score keccak256 indexCid))
  rw [← List.map_append] at hlost hgained
  constructor
  · rw [← score_closest ids, List.filter_map, List.length_map, List.length_map] at hlost
    refine le_of_eq_of_le (congrArg List.length (List.filter_congr fun id _ => ?_)) hlost
    simp [mem_closest]
  · intro id hid
    rw [mem_closest] at hid
    refine (hgained _ hid).imp (fun hnew => ?_) mem_closest.2
    exact (List.mem_map_of_injective hinj).1 hnew

/-- What becomes of a group's assignees when one of them goes: all others stay and at most one more comes, from the
same group. -/
def ReplacesOne (old new : List Nat) (gone : Nat) (group : List Nat) : Prop :=
  (∀ id ∈ old, id ≠ gone → id ∈ new) ∧
    ∃ come : List Nat, come.length ≤ 1 ∧ come ⊆ group ∧ ∀ id ∈ new, id ∈ old ∨ id ∈ come

theorem replacesOne_closest (h : id ∈ closest keccak256 indexCid ids n) :
    ReplacesOne (closest keccak256 indexCid ids n) (closest keccak256 indexCid (ids.erase id) n) id (ids.erase id) := by
  obtain ⟨new, hlen, hsub, heq⟩ := closest_erase_of_mem h
  rw [heq]
  refine ⟨fun a ha hne => List.mem_append_left _ ((List.mem_erase_of_ne hne).2 ha), new, hlen, hsub, fun a ha => ?_⟩
  exact (List.mem_append.1 ha).imp_left List.mem_of_mem_erase

/-- Rendezvous assignment. It does not depend on the order of the lists; removing an id that is no assignee changes
nothing; removing an assignee from a list keeps all others and lets at most one more in, from that list; adding ids
lets at most as many go; and the validators do not depend on the storage providers. -/
theorem assignment_disrupts_minimally (keccak256 : Bytes → Hash) (indexCid : Bytes) {validators storage : List Nat}
    (hv : validators.Nodup) (hs : storage.Nodup) :
    (∀ validators' storage', validators'.Perm validators → storage'.Perm storage →
      assignees keccak256 indexCid validators' storage' = assignees keccak256 indexCid validators storage) ∧
    (∀ id ∉ assignees keccak256 indexCid validators storage,
      assignees keccak256 indexCid (validators.erase id) (storage.erase id) =
        assignees keccak256 indexCid validators storage) ∧
    (∀ id ∈ closest keccak256 indexCid validators historyReplication, ∃ group,
      assignees keccak256 indexCid (validators.erase id) storage =
        group ++ closest keccak256 indexCid storage storageReplication ∧
      ReplacesOne (closest keccak256 indexCid validators historyReplication) group id (validators.erase id)) ∧
    (∀ id ∈ closest keccak256 indexCid storage storageReplication, ∃ group,
      assignees keccak256 indexCid validators (storage.erase id) =
        closest keccak256 indexCid validators historyReplication ++ group ∧
      ReplacesOne (closest keccak256 indexCid storage storageReplication) group id (storage.erase id)) ∧
    (∀ moreValidators moreStorage : List Nat,
      ((assignees keccak256 indexCid validators storage).filter
        (· ∉ assignees keccak256 indexCid (moreValidators ++ validators) (moreStorage ++ storage))).length ≤
          moreValidators.length + moreStorage.length) ∧
    (∀ storage', (assignees keccak256 indexCid validators storage').take
        (closest keccak256 indexCid validators historyReplication).length =
      closest keccak256 indexCid validators historyReplication) := by
  refine ⟨fun vs ss hvs hss => ?_, fun id hid => ?_, fun id hid => ?_, fun id hid => ?_, fun vs ss => ?_, fun ss => ?_⟩
  · rw [assignees, assignees, closest_of_perm hvs, closest_of_perm hss]
  · rw [assignees, List.mem_append, not_or] at hid
    rw [assignees, assignees, closest_erase_of_notMem hid.1, closest_erase_of_notMem hid.2]
  · exact ⟨_, rfl, replacesOne_closest hid⟩
  · exact ⟨_, rfl, replacesOne_closest hid⟩
  · have hlost : ∀ (old new more : List Nat), (∀ id ∈ new, id ∈ more) →
        (old.filter (· ∉ more)).length ≤ (old.filter (· ∉ new)).length := fun old new more hsub =>
      (List.monotone_filter_right old fun id => by simpa using fun hmore hnew => hmore (hsub id hnew)).length_le
    rw [assignees, assignees, List.filter_append, List.length_append]
    exact Nat.add_le_add ((hlost _ _ _ fun id hid => List.mem_append_left _ hid).trans (closest_append hv vs).1)
      ((hlost _ _ _ fun id hid => List.mem_append_right _ hid).trans (closest_append hs ss).1)
  · exact List.take_left

def lastByte (b : Bytes) : Hash := (b.getLast?.getD 0).toNat

theorem assignment_disrupts_minimally_three :
    assignees lastByte [7] [3, 1, 2] [] = assignees lastByte [7] [1, 2, 3] [] ∧
      ([1, 2, 3] : List Nat).Nodup ∧ ([] : List Nat).Nodup := by
  refine ⟨(assignment_disrupts_minimally lastByte [7] (by decide) List.nodup_nil).1 _ _ ?_ (.refl []), by decide,
    List.nodup_nil⟩
  decide

end Boltchain.System
