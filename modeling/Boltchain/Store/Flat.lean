import Boltchain.Store.State
import Boltchain.Store.TrieCanon

namespace Boltchain.Store

open Consensus (Bytes)
open Lib

/-- Accounts and storage without tables, tries or roots. -/
@[ext] structure Flat where
  info : Address → Option AccountInfo
  slot : Address → U256 → U256

def State.flat (st : State) : Flat := ⟨fun a => (st.accounts.get a).map Account.toAccountInfo, st.slot⟩

def slotsAfter (slot : Address → U256 → U256) (c : PlainStorageChangeset) : Address → U256 → U256 :=
  Function.update slot c.address
    (c.storage.foldl (fun f w => Function.update f w.1 w.2) (if c.wipeStorage then 0 else slot c.address))

def entryOf (accounts : List (Address × Option AccountInfo)) (a : Address) : Option (Option AccountInfo) :=
  accounts.foldl (fun o e => if e.1 = a then some e.2 else o) none

def touches (cs : List PlainStorageChangeset) (a : Address) : Bool :=
  cs.any fun c => decide (c.address = a) && (c.wipeStorage || !c.storage.isEmpty)

/-- What changes mean: storage first, then accounts; an account that only has storage changes is kept, or
created without balance, nonce and code. -/
def Flat.apply (keccak256 : Bytes → B256) (f : Flat) (changes : StateChangeset) : Flat where
  info a :=
    match entryOf changes.accounts a with
    | some info => info
    | none =>
      if touches changes.storage a then some ((f.info a).getD (Account.default keccak256).toAccountInfo) else f.info a
  slot a := if entryOf changes.accounts a = some none then 0 else changes.storage.foldl slotsAfter f.slot a

section Maps

noncomputable def overHashes {α : Type} (h : α → B256) (f : α → Option Value) : TrieMap :=
  Function.extend h f fun _ => none

variable {α : Type} [DecidableEq α] {h : α → B256} {f : α → Option Value}

theorem overHashes_apply (hinj : Function.Injective h) (a : α) : overHashes h f (h a) = f a :=
  hinj.extend_apply _ _ _

theorem overHashes_of_not_mem {x : B256} (hx : x ∉ Set.range h) : overHashes h f x = none :=
  Function.extend_apply' _ _ _ hx

theorem overHashes_update (hinj : Function.Injective h) (a : α) (v : Option Value) :
    overHashes h (Function.update f a v) = Function.update (overHashes h f) (h a) v := by
  funext x
  by_cases hx : x ∈ Set.range h
  · obtain ⟨b, rfl⟩ := hx
    rw [overHashes_apply hinj]
    by_cases hb : b = a
    · simp [hb]
    · rw [Function.update_of_ne hb, Function.update_of_ne (hinj.ne hb), overHashes_apply hinj]
  · rw [overHashes_of_not_mem hx, Function.update_of_ne fun heq => hx ⟨a, heq.symm⟩, overHashes_of_not_mem hx]

theorem overHashes_none (hinj : Function.Injective h) : overHashes h (fun _ => none) = fun _ => none := by
  funext x
  by_cases hx : x ∈ Set.range h
  · obtain ⟨a, rfl⟩ := hx
    exact overHashes_apply hinj a
  · exact overHashes_of_not_mem hx

theorem lists_overHashes (hinj : Function.Injective h) (es : List (α × Value)) (hnodup : (es.map Prod.fst).Nodup)
    (hes : ∀ a v, (a, v) ∈ es ↔ f a = some v) : Lists (es.map fun e => (h e.1, e.2)) (overHashes h f) := by
  refine ⟨?_, fun x v => ?_⟩
  · have := hnodup.map hinj
    rw [List.map_map] at this
    rwa [List.map_map]
  · simp only [List.mem_map, Prod.mk.injEq]
    constructor
    · rintro ⟨⟨a, w⟩, hmem, rfl, rfl⟩
      rw [overHashes_apply hinj]
      exact (hes a w).1 hmem
    · intro hx
      have hrange : x ∈ Set.range h := by
        by_contra hnot
        rw [overHashes_of_not_mem hnot] at hx
        cases hx
      obtain ⟨a, rfl⟩ := hrange
      rw [overHashes_apply hinj] at hx
      exact ⟨(a, v), (hes a v).2 hx, rfl, rfl⟩

end Maps

end Boltchain.Store
