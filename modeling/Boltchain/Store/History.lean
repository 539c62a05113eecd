import Boltchain.Lib.Journal
import Boltchain.Store.Agree

namespace Boltchain.Store

open Consensus (Bytes)
open Lib

/-- What is recorded for one block: the values before it and the keys of the entries. -/
@[ext] structure History where
  account : Address → Option (Option AccountInfo)
  slot : Address → U256 → Option U256
  key : HistKey → Option Unit

namespace History

def empty : History := ⟨fun _ => none, fun _ _ => none, fun _ => none⟩

def addAccount (h : History) (r : Address × Option AccountInfo) : History :=
  ⟨Function.update h.account r.1 (some r.2), h.slot, Function.update h.key (.account r.1) (some ())⟩

def addSlot (h : History) (a : Address) (r : U256 × RevertToSlot) : History :=
  ⟨h.account, Function.update h.slot a (Function.update (h.slot a) r.1 (some r.2.value)),
    Function.update h.key (.slot a r.1) (some ())⟩

def remove (h : History) (k : HistKey) : History where
  account a := if k = .account a then none else h.account a
  slot a s := if k = .slot a s then none else h.slot a s
  key j := if j = k then none else h.key j

def Has (h : History) : HistKey → Prop
  | .account a => h.account a ≠ none
  | .slot a s => h.slot a s ≠ none

/-- The entries are values of a state, and their keys are listed. -/
structure Collects (h : History) (f : Flat) : Prop where
  account : ∀ a o, h.account a = some o → o = f.info a
  slot : ∀ a s v, h.slot a s = some v → v = f.slot a s
  key : ∀ k, h.key k ≠ none ↔ h.Has k

/-- The entries take the state after a block back to the one before it. Slots are those of accounts. -/
structure Records (h : History) (before after : Flat) : Prop extends Collects h before where
  account_changed : ∀ a, after.info a ≠ before.info a → h.Has (.account a)
  slot_changed : ∀ a s, after.slot a s ≠ before.slot a s → h.Has (.slot a s)
  slot_account : ∀ a s, h.Has (.slot a s) → before.info a ≠ none ∨ h.Has (.account a)

variable {h : History} {f : Flat}

theorem collects_empty (f : Flat) : empty.Collects f where
  account _ _ h := by cases h
  slot _ _ _ h := by cases h
  key k := by cases k <;> simp [empty, Has]

theorem Collects.eq_empty (hc : h.Collects f) (hnone : ∀ k, ¬h.Has k) : h = empty := by
  apply History.ext
  · funext a
    exact not_not.1 (hnone (.account a))
  · funext a s
    exact not_not.1 (hnone (.slot a s))
  · funext k
    exact not_not.1 fun hk => hnone k ((hc.key k).1 hk)

theorem has_addAccount (r : Address × Option AccountInfo) (k : HistKey) :
    (h.addAccount r).Has k ↔ k = .account r.1 ∨ h.Has k := by
  cases k with
  | account a =>
    by_cases ha : a = r.1
    · simp [Has, addAccount, ha]
    · simp [Has, addAccount, ha]
  | slot a s => simp [Has, addAccount]

theorem has_addSlot (a : Address) (r : U256 × RevertToSlot) (k : HistKey) :
    (h.addSlot a r).Has k ↔ k = .slot a r.1 ∨ h.Has k := by
  cases k with
  | account b => simp [Has, addSlot]
  | slot b s =>
    by_cases hb : b = a
    · subst hb
      by_cases hs : s = r.1
      · simp [Has, addSlot, hs]
      · simp [Has, addSlot, hs]
    · simp [Has, addSlot, hb]

theorem Collects.addAccount (hc : h.Collects f) {r : Address × Option AccountInfo} (hr : r.2 = f.info r.1) :
    (h.addAccount r).Collects f where
  account a o ho := by
    by_cases ha : a = r.1
    · subst ha
      simp only [History.addAccount, Function.update_self, Option.some.injEq] at ho
      rw [← ho, hr]
    · simp only [History.addAccount, Function.update_of_ne ha] at ho
      exact hc.account a o ho
  slot := hc.slot
  key k := by
    rw [has_addAccount]
    by_cases hk : k = .account r.1
    · simp [History.addAccount, hk]
    · simp only [History.addAccount, Function.update_of_ne hk, hk, false_or]
      exact hc.key k

theorem Collects.addSlot (hc : h.Collects f) {a : Address} {r : U256 × RevertToSlot} (hr : r.2.value = f.slot a r.1) :
    (h.addSlot a r).Collects f where
  account := hc.account
  slot b s v hv := by
    by_cases hb : b = a
    · subst hb
      simp only [History.addSlot, Function.update_self] at hv
      by_cases hs : s = r.1
      · subst hs
        rw [Function.update_self, Option.some.injEq] at hv
        rw [← hv, hr]
      · rw [Function.update_of_ne hs] at hv
        exact hc.slot b s v hv
    · simp only [History.addSlot, Function.update_of_ne hb] at hv
      exact hc.slot b s v hv
  key k := by
    rw [has_addSlot]
    by_cases hk : k = .slot a r.1
    · simp [History.addSlot, hk]
    · simp only [History.addSlot, Function.update_of_ne hk, hk, false_or]
      exact hc.key k

theorem has_remove (k j : HistKey) : (h.remove k).Has j ↔ h.Has j ∧ j ≠ k := by
  cases j with
  | account a =>
    by_cases hk : k = .account a
    · simp [Has, remove, hk]
    · simp [Has, remove, hk, Ne.symm hk]
  | slot a s =>
    by_cases hk : k = .slot a s
    · simp [Has, remove, hk]
    · simp [Has, remove, hk, Ne.symm hk]

theorem Collects.remove (hc : h.Collects f) (k : HistKey) : (h.remove k).Collects f where
  account a o ho := by
    simp only [History.remove] at ho
    split at ho
    · cases ho
    · exact hc.account a o ho
  slot a s v hv := by
    simp only [History.remove] at hv
    split at hv
    · cases hv
    · exact hc.slot a s v hv
  key j := by
    rw [has_remove, ← hc.key]
    by_cases hj : j = k
    · simp [History.remove, hj]
    · simp [History.remove, hj]

theorem Collects.foldl {α : Type} (add : History → α → History) (key : α → HistKey) (ok : α → Prop)
    (hadd : ∀ h x, h.Collects f → ok x → (add h x).Collects f)
    (hkey : ∀ h x k, (add h x).Has k ↔ k = key x ∨ h.Has k) {l : List α} (hl : ∀ x ∈ l, ok x) (hc : h.Collects f) :
    (l.foldl add h).Collects f ∧ ∀ k, (l.foldl add h).Has k ↔ (∃ x ∈ l, k = key x) ∨ h.Has k := by
  induction l generalizing h with
  | nil => exact ⟨hc, by simp⟩
  | cons x l ih =>
    obtain ⟨hc', hhas⟩ := ih (fun y hy => hl y (List.mem_cons_of_mem x hy)) (hadd h x hc (hl x List.mem_cons_self))
    refine ⟨hc', fun k => ?_⟩
    rw [List.foldl_cons, hhas, hkey]
    simp only [List.mem_cons, exists_eq_or_imp]
    rw [or_assoc, or_left_comm]

end History

def State.history (st : State) (number : Nat) : History where
  account a := st.accHist.get (toLex (a, number))
  slot a s := st.stoHist.get (toLex (slotKey a s, number))
  key k := st.histKeys.get (toLex (number, k))

def PlainStateReverts.Has (reverts : PlainStateReverts) : HistKey → Prop
  | .account a => ∃ o, (a, o) ∈ reverts.accounts.flatten
  | .slot a s => ∃ r ∈ reverts.storage.flatten, r.address = a ∧ ∃ v, (s, v) ∈ r.storageRevert

/-- The reverts of a bundle are the values before the block of all that it changes. Slots are those of accounts; a
wiped slot was empty. -/
structure ExactReverts (keccak256 : Bytes → B256) (f : Flat) (bundle : BundleState) : Prop where
  account : ∀ a o, (a, o) ∈ bundle.reverts.accounts.flatten → o = f.info a
  slot : ∀ r ∈ bundle.reverts.storage.flatten, ∀ s v, (s, v) ∈ r.storageRevert → v.value = f.slot r.address s
  account_changed : ∀ a, (f.apply keccak256 bundle.changes).info a ≠ f.info a → bundle.reverts.Has (.account a)
  slot_changed : ∀ a s, (f.apply keccak256 bundle.changes).slot a s ≠ f.slot a s → bundle.reverts.Has (.slot a s)
  slot_account : ∀ a s, bundle.reverts.Has (.slot a s) → f.info a ≠ none ∨ bundle.reverts.Has (.account a)

section Write

variable {st : State} {number m : Nat} {f : Flat}

theorem history_recordAccount (r : Address × Option AccountInfo) :
    (recordAccount number st r).history number = (st.history number).addAccount r := by
  apply History.ext
  · funext a
    simp [State.history, recordAccount, History.addAccount, Table.get_put, Function.update_apply]
  · rfl
  · funext k
    simp [State.history, recordAccount, History.addAccount, Table.get_put, Function.update_apply]

theorem history_recordAccount_of_ne (r : Address × Option AccountInfo) (hm : m ≠ number) :
    (recordAccount number st r).history m = st.history m := by
  apply History.ext
  · funext a
    simp [State.history, recordAccount, Table.get_put, hm]
  · rfl
  · funext k
    simp [State.history, recordAccount, Table.get_put, hm]

theorem history_recordSlot (a : Address) (r : U256 × RevertToSlot) :
    (recordSlot number a st r).history number = (st.history number).addSlot a r := by
  apply History.ext
  · rfl
  · funext b s
    by_cases hb : b = a
    · subst hb
      simp [State.history, recordSlot, History.addSlot, Table.get_put, Function.update_apply]
    · simp [State.history, recordSlot, History.addSlot, Table.get_put, hb]
  · funext k
    simp [State.history, recordSlot, History.addSlot, Table.get_put, Function.update_apply]

theorem history_recordSlot_of_ne (a : Address) (r : U256 × RevertToSlot) (hm : m ≠ number) :
    (recordSlot number a st r).history m = st.history m := by
  apply History.ext
  · rfl
  · funext b s
    simp [State.history, recordSlot, Table.get_put, hm]
  · funext k
    simp [State.history, recordSlot, Table.get_put, hm]

variable {α : Type}

theorem history_foldl {step : State → α → State} (add : History → α → History)
    (h : ∀ st x, (step st x).history number = add (st.history number) x) (l : List α) :
    (l.foldl step st).history number = l.foldl add (st.history number) := by
  induction l generalizing st with
  | nil => rfl
  | cons x l ih => rw [List.foldl_cons, ih, h, List.foldl_cons]

theorem history_foldl_same {step : State → α → State}
    (h : ∀ st x, (step st x).history m = st.history m) (l : List α) : (l.foldl step st).history m = st.history m := by
  induction l generalizing st with
  | nil => rfl
  | cons x l ih => rw [List.foldl_cons, ih, h]

theorem writeHistory_of_ne (reverts : PlainStateReverts) (hm : m ≠ number) :
    (writeHistory st number reverts).history m = st.history m := by
  rw [writeHistory, history_foldl_same fun st r => history_foldl_same (fun st x => history_recordSlot_of_ne _ x hm) _,
    history_foldl_same fun st x => history_recordAccount_of_ne x hm]

/-- A block without history gets the entries of its reverts. -/
theorem writeHistory_collects (hnone : st.history number = History.empty) {reverts : PlainStateReverts}
    (haccount : ∀ a o, (a, o) ∈ reverts.accounts.flatten → o = f.info a)
    (hslot : ∀ r ∈ reverts.storage.flatten, ∀ s v, (s, v) ∈ r.storageRevert → v.value = f.slot r.address s) :
    ((writeHistory st number reverts).history number).Collects f ∧
      ∀ k, ((writeHistory st number reverts).history number).Has k ↔ reverts.Has k := by
  -- the storage of all accounts as one list
  let slots := reverts.storage.flatten.flatMap fun r => r.storageRevert.map fun x => (r.address, x)
  have hwrite : writeHistory st number reverts = slots.foldl (fun st x => recordSlot number x.1 st x.2)
      (reverts.accounts.flatten.foldl (recordAccount number) st) := by
    rw [writeHistory, List.foldl_flatMap]
    simp only [List.foldl_map]
  have hhist : (writeHistory st number reverts).history number =
      slots.foldl (fun h x => h.addSlot x.1 x.2) (reverts.accounts.flatten.foldl History.addAccount History.empty) := by
    rw [hwrite, history_foldl (fun h x => h.addSlot x.1 x.2) fun st x => history_recordSlot x.1 x.2,
      history_foldl History.addAccount fun st x => history_recordAccount x, hnone]
  obtain ⟨hc₁, hhas₁⟩ := History.Collects.foldl History.addAccount (fun r => .account r.1) (fun r => r.2 = f.info r.1)
    (fun h x hc hx => hc.addAccount hx) (fun h x k => History.has_addAccount x k) (l := reverts.accounts.flatten)
    (fun x hx => haccount x.1 x.2 hx) (History.collects_empty f)
  obtain ⟨hc₂, hhas₂⟩ := History.Collects.foldl (fun h x => h.addSlot x.1 x.2) (fun x => .slot x.1 x.2.1)
    (fun x => x.2.2.value = f.slot x.1 x.2.1) (fun h x hc hx => hc.addSlot hx)
    (fun h x k => History.has_addSlot x.1 x.2 k) (l := slots)
    (fun x hx => by
      obtain ⟨r, hr, hx⟩ := List.mem_flatMap.1 hx
      obtain ⟨y, hy, rfl⟩ := List.mem_map.1 hx
      exact hslot r hr y.1 y.2 hy) hc₁
  rw [hhist]
  refine ⟨hc₂, fun k => ?_⟩
  rw [hhas₂, hhas₁]
  cases k with
  | account a => simp [PlainStateReverts.Has, History.Has, History.empty]
  | slot a s =>
    simp only [PlainStateReverts.Has, History.Has, History.empty, slots, List.mem_flatMap, List.mem_map, HistKey.slot.injEq,
      reduceCtorEq, and_false, exists_false, ne_eq, not_true, or_false]
    constructor
    · rintro ⟨x, ⟨r, hr, y, hy, rfl⟩, rfl, rfl⟩
      exact ⟨r, hr, rfl, y.2, hy⟩
    · rintro ⟨r, hr, rfl, v, hv⟩
      exact ⟨(r.address, s, v), ⟨r, hr, (s, v), hv, rfl⟩, rfl, rfl⟩

theorem ExactReverts.records {keccak256 : Bytes → B256} {bundle : BundleState} (h : ExactReverts keccak256 f bundle)
    (hnone : st.history number = History.empty) :
    ((writeHistory st number bundle.reverts).history number).Records f (f.apply keccak256 bundle.changes) := by
  obtain ⟨hc, hhas⟩ := writeHistory_collects hnone h.account h.slot
  refine ⟨hc, fun a ha => (hhas _).2 (h.account_changed a ha), fun a s hs => (hhas _).2 (h.slot_changed a s hs),
    fun a s hs => ?_⟩
  rw [hhas]
  exact h.slot_account a s ((hhas _).1 hs)

end Write

section Undo

variable {st : State} {number m : Nat} {f : Flat} {k : HistKey} {u : Undo} {keys : List HistKey}

theorem mem_keysOf : k ∈ keysOf st number ↔ (st.history number).key k ≠ none := by
  simp only [keysOf, List.mem_map, List.mem_filter, decide_eq_true_eq, Table.mem_entries_iff]
  constructor
  · rintro ⟨⟨j, v⟩, ⟨hget, rfl⟩, rfl⟩
    exact Option.ne_none_iff_exists'.2 ⟨v, hget⟩
  · intro hk
    obtain ⟨v, hv⟩ := Option.ne_none_iff_exists'.1 hk
    exact ⟨(toLex (number, k), v), ⟨hv, rfl⟩, rfl⟩

theorem nodup_keysOf : (keysOf st number).Nodup := by
  refine List.Nodup.map_on (fun x hx y hy hxy => ?_) ?_
  · obtain ⟨hx, hxn⟩ := List.mem_filter.1 hx
    obtain ⟨hy, hyn⟩ := List.mem_filter.1 hy
    rw [decide_eq_true_eq] at hxn hyn
    exact List.inj_on_of_nodup_map st.histKeys.nodup_keys hx hy (ofLex.injective (Prod.ext (hxn.trans hyn.symm) hxy))
  · exact (List.Nodup.of_map _ st.histKeys.nodup_keys).filter _

theorem history_pruneKey (k : HistKey) :
    (pruneKey st (toLex (number, k))).history number = (st.history number).remove k := by
  cases k with
  | account a =>
    apply History.ext
    · funext b
      simp [State.history, pruneKey, History.remove, Table.get_del, eq_comm]
    · rfl
    · funext j
      simp [State.history, pruneKey, History.remove, Table.get_del]
  | slot a s =>
    apply History.ext
    · rfl
    · funext b t
      simp [State.history, pruneKey, History.remove, Table.get_del, eq_comm]
    · funext j
      simp [State.history, pruneKey, History.remove, Table.get_del]

theorem history_pruneKey_of_ne (k : HistKey) (hm : m ≠ number) :
    (pruneKey st (toLex (number, k))).history m = st.history m := by
  cases k with
  | account a =>
    apply History.ext
    · funext b
      simp [State.history, pruneKey, Table.get_del, hm]
    · rfl
    · funext j
      simp [State.history, pruneKey, Table.get_del, hm]
  | slot a s =>
    apply History.ext
    · rfl
    · funext b t
      simp [State.history, pruneKey, Table.get_del, hm]
    · funext j
      simp [State.history, pruneKey, Table.get_del, hm]

/-- What is collected while the entries of some keys are taken out. -/
structure Undone (number : Nat) (f : Flat) (u : Undo) (keys : List HistKey) (u' : Undo) : Prop where
  accounts : ∀ a o, (a, o) ∈ u'.accounts ↔ (a, o) ∈ u.accounts ∨ .account a ∈ keys ∧ o = f.info a
  slots : ∀ a s v, (s, v) ∈ (u'.storage.get a).getD [] ↔
    (s, v) ∈ (u.storage.get a).getD [] ∨ .slot a s ∈ keys ∧ v = f.slot a s
  collects : (u'.st.history number).Collects f
  has : ∀ k, (u'.st.history number).Has k ↔ (u.st.history number).Has k ∧ k ∉ keys
  other : ∀ m, m ≠ number → u'.st.history m = u.st.history m

/-- One entry is taken out as by pruning, and its value is kept. -/
theorem undoKey_spec (hc : (u.st.history number).Collects f) (hk : (u.st.history number).Has k) :
    ∃ u', undoKey number u k = .ok u' ∧ Undone number f u [k] u' := by
  have hcollects : ((pruneKey u.st (toLex (number, k))).history number).Collects f := by
    rw [history_pruneKey]
    exact hc.remove k
  have hhas : ∀ j, ((pruneKey u.st (toLex (number, k))).history number).Has j ↔
      (u.st.history number).Has j ∧ j ∉ [k] := by
    intro j
    rw [history_pruneKey, History.has_remove, List.mem_singleton]
  have hother : ∀ m, m ≠ number → (pruneKey u.st (toLex (number, k))).history m = u.st.history m :=
    fun m hm => history_pruneKey_of_ne k hm
  cases k with
  | account a =>
    obtain ⟨o, ho⟩ := Option.ne_none_iff_exists'.1 hk
    have hval : o = f.info a := hc.account a o ho
    refine ⟨⟨pruneKey u.st (toLex (number, .account a)), u.accounts ++ [(a, o)], u.storage⟩, ?_,
      fun b o' => ?_, fun b s v => ?_, hcollects, hhas, hother⟩
    · unfold undoKey
      simp only [show u.st.accHist.get (toLex (a, number)) = some o from ho]
      rfl
    · simp only [List.mem_append, List.mem_singleton, Prod.mk.injEq, HistKey.account.injEq]
      refine or_congr Iff.rfl (and_congr_right ?_)
      rintro rfl
      rw [hval]
    · simp
  | slot a s =>
    obtain ⟨v, hv⟩ := Option.ne_none_iff_exists'.1 hk
    have hval : v = f.slot a s := hc.slot a s v hv
    refine ⟨⟨pruneKey u.st (toLex (number, .slot a s)), u.accounts,
      u.storage.put a ((u.storage.get a).getD [] ++ [(s, v)])⟩, ?_, fun b o => ?_, fun b t w => ?_,
      hcollects, hhas, hother⟩
    · unfold undoKey
      simp only [show u.st.stoHist.get (toLex (slotKey a s, number)) = some v from hv]
      rfl
    · simp
    · by_cases hb : b = a
      · subst hb
        simp only [Table.get_put, if_true, Option.getD_some, List.mem_append, List.mem_singleton, Prod.mk.injEq,
          HistKey.slot.injEq, true_and]
        refine or_congr Iff.rfl (and_congr_right ?_)
        rintro rfl
        rw [hval]
      · simp [Table.get_put, hb]

theorem foldlM_undoKey_spec (hkeys : keys.Nodup) (hc : (u.st.history number).Collects f)
    (hhas : ∀ k ∈ keys, (u.st.history number).Has k) :
    ∃ u', keys.foldlM (undoKey number) u = .ok u' ∧ Undone number f u keys u' := by
  induction keys generalizing u with
  | nil => exact ⟨u, rfl, by simp, by simp, hc, by simp, fun _ _ => rfl⟩
  | cons k keys ih =>
    obtain ⟨hk, hkeys⟩ := List.nodup_cons.1 hkeys
    obtain ⟨u₁, hrun₁, h₁⟩ := undoKey_spec hc (hhas k List.mem_cons_self)
    have hhas₁ : ∀ j ∈ keys, (u₁.st.history number).Has j := by
      intro j hj
      rw [h₁.has, List.mem_singleton]
      exact ⟨hhas j (List.mem_cons_of_mem k hj), fun hjk => hk (hjk ▸ hj)⟩
    obtain ⟨u', hrun, h'⟩ := ih hkeys h₁.collects hhas₁
    refine ⟨u', ?_, fun a o => ?_, fun a s v => ?_, h'.collects, fun j => ?_,
      fun m hm => (h'.other m hm).trans (h₁.other m hm)⟩
    · rw [List.foldlM_cons, hrun₁]
      exact hrun
    · rw [h'.accounts, h₁.accounts, or_assoc, ← or_and_right, List.mem_singleton, List.mem_cons]
    · rw [h'.slots, h₁.slots, or_assoc, ← or_and_right, List.mem_singleton, List.mem_cons]
    · rw [h'.has, h₁.has, and_assoc, List.mem_singleton, List.mem_cons, not_or]

end Undo

section Restore

variable {f g : Flat} {a : Address}

variable {l : List (Address × Option AccountInfo)}

theorem entryOf_mem {o : Option AccountInfo} (h : entryOf l a = some o) :
    (a, o) ∈ l := by
  induction l using List.reverseRecOn with
  | nil => cases h
  | append_singleton l e ih =>
    rw [entryOf, List.foldl_append, List.foldl_cons, List.foldl_nil] at h
    split at h
    · rename_i he
      cases h
      rw [← he]
      simp
    · exact List.mem_append_left _ (ih h)

theorem entryOf_eq_none (h : entryOf l a = none) (o : Option AccountInfo) :
    (a, o) ∉ l := by
  induction l using List.reverseRecOn with
  | nil => simp
  | append_singleton l e ih =>
    rw [entryOf, List.foldl_append, List.foldl_cons, List.foldl_nil] at h
    split at h
    · cases h
    · rename_i he
      rw [List.mem_append, List.mem_singleton, not_or]
      exact ⟨ih h, fun heq => he (by rw [← heq])⟩

/-- Writing the slots of a state back, where others differ from it, gives the state. -/
theorem foldl_slotsAfter_restore {slot slot' : Address → U256 → U256} {cs : List PlainStorageChangeset}
    (hcs : ∀ c ∈ cs, c.wipeStorage = false ∧ ∀ w ∈ c.storage, w.2 = slot' c.address w.1)
    (hdiff : ∀ a s, slot a s ≠ slot' a s → ∃ c ∈ cs, c.address = a ∧ ∃ w ∈ c.storage, w.1 = s) :
    cs.foldl slotsAfter slot = slot' := by
  induction cs generalizing slot with
  | nil =>
    funext a s
    by_contra hne
    obtain ⟨c, hc, -⟩ := hdiff a s hne
    cases hc
  | cons c cs ih =>
    obtain ⟨hwipe, hvalues⟩ := hcs c List.mem_cons_self
    refine ih (fun d hd => hcs d (List.mem_cons_of_mem c hd)) fun a s hne => ?_
    have hafter : slotsAfter slot c = Function.update slot c.address (Journal.write (slot c.address) c.storage) := by
      rw [slotsAfter, hwipe]
      rfl
    rw [hafter] at hne
    -- a slot this account has just got back is right
    have hnot : ¬(c.address = a ∧ ∃ w ∈ c.storage, w.1 = s) := by
      rintro ⟨rfl, hw⟩
      rw [Function.update_self, Journal.write_of_mem hw hvalues] at hne
      exact hne rfl
    have hsame : Function.update slot c.address (Journal.write (slot c.address) c.storage) a s = slot a s := by
      by_cases ha : a = c.address
      · subst ha
        rw [Function.update_self, Journal.write_of_notMem fun w hw hws => hnot ⟨rfl, w, hw, hws⟩]
      · rw [Function.update_of_ne ha]
    rw [hsame] at hne
    obtain ⟨d, hd, hda, hw⟩ := hdiff a s hne
    rcases List.mem_cons.1 hd with rfl | hd
    · exact absurd ⟨hda, hw⟩ hnot
    · exact ⟨d, hd, hda, hw⟩

end Restore

section Unwind

variable {keccak256 : Bytes → B256} {st : State} {number : Nat} {before : Flat}

/-- The collected values, applied as changes, give the state before the block. -/
theorem apply_undone {h : History} {after : Flat} (hrec : h.Records before after)
    (hbefore : ∀ a, before.info a = none → before.slot a = 0) {accounts : List (Address × Option AccountInfo)}
    {storage : Table Address (List (U256 × U256))}
    (haccounts : ∀ a o, (a, o) ∈ accounts ↔ h.Has (.account a) ∧ o = before.info a)
    (hslots : ∀ a s v, (s, v) ∈ (storage.get a).getD [] ↔ h.Has (.slot a s) ∧ v = before.slot a s) :
    after.apply keccak256 ⟨accounts, storage.entries.map fun e => ⟨e.1, false, e.2⟩, []⟩ = before := by
  have hentry : ∀ a, entryOf accounts a = some (before.info a) ∨
      entryOf accounts a = none ∧ ¬h.Has (.account a) ∧ after.info a = before.info a := by
    intro a
    cases he : entryOf accounts a with
    | some o => exact .inl (by rw [((haccounts a o).1 (entryOf_mem he)).2])
    | none =>
      have hnot : ¬h.Has (.account a) := fun hhas => entryOf_eq_none he _ ((haccounts a _).2 ⟨hhas, rfl⟩)
      exact .inr ⟨rfl, hnot, not_not.1 fun hne => hnot (hrec.account_changed a hne)⟩
  have hstorage : ∀ a l, storage.get a = some l ↔ (a, l) ∈ storage.entries := fun a l => Table.get_eq_some
  apply Flat.ext
  · funext a
    simp only [Flat.apply]
    rcases hentry a with he | ⟨he, hnot, hsame⟩
    · rw [he]
    · rw [he]
      simp only
      split
      · rename_i htouch
        -- an account that only gets slots back exists
        obtain ⟨c, hc, hca⟩ := List.any_eq_true.1 htouch
        obtain ⟨⟨b, l⟩, hl, rfl⟩ := List.mem_map.1 hc
        simp only [Bool.false_or, Bool.and_eq_true, decide_eq_true_eq] at hca
        obtain ⟨rfl, hne⟩ := hca
        obtain ⟨⟨s, v⟩, l', rfl⟩ := List.exists_cons_of_ne_nil (by simpa using hne)
        have hmem : (s, v) ∈ (storage.get b).getD [] := by
          rw [(hstorage b _).2 hl]
          simp
        obtain ⟨info, hinfo⟩ := Option.ne_none_iff_exists'.1
          ((hrec.slot_account b s ((hslots b s v).1 hmem).1).resolve_right hnot)
        rw [hsame, hinfo]
        rfl
      · exact hsame
  · funext a
    simp only [Flat.apply]
    split
    · rename_i he
      rcases hentry a with he' | ⟨he', -⟩
      · rw [he, Option.some.injEq] at he'
        exact (hbefore a he'.symm).symm
      · rw [he] at he'
        cases he'
    · refine congrFun (foldl_slotsAfter_restore ?_ ?_) a
      · intro c hc
        obtain ⟨⟨b, l⟩, hl, rfl⟩ := List.mem_map.1 hc
        refine ⟨rfl, fun w hw => ?_⟩
        have hmem : (w.1, w.2) ∈ (storage.get b).getD [] := by
          rw [(hstorage b l).2 hl]
          exact hw
        exact ((hslots b w.1 w.2).1 hmem).2
      · intro b s hne
        have hmem := (hslots b s (before.slot b s)).2 ⟨hrec.slot_changed b s hne, rfl⟩
        cases hl : storage.get b with
        | none => simp [hl] at hmem
        | some l =>
          rw [hl] at hmem
          exact ⟨_, List.mem_map.2 ⟨(b, l), (hstorage b l).1 hl, rfl⟩, rfl, _, hmem, rfl⟩

theorem unwindState_history {covers : Bool} {root : B256} {st' : State} (hk : CollisionFree keccak256)
    (h : Consistent keccak256 st) (hc : (st.history number).Collects before)
    (hrun : unwindState keccak256 covers st number = .ok (root, st')) :
    st'.history number = History.empty ∧ ∀ m, m ≠ number → st'.history m = st.history m := by
  have hkeys : ∀ k, k ∈ keysOf st number ↔ (st.history number).Has k := fun k => mem_keysOf.trans (hc.key k)
  obtain ⟨u, hfold, hu⟩ := foldlM_undoKey_spec (u := ⟨st, [], Table.empty⟩) (f := before) nodup_keysOf hc
    fun k hk => (hkeys k).1 hk
  obtain ⟨root', st'', happ, hspec⟩ := applyChanges_spec hk ((foldlM_undoKey_live hfold).consistent h)
    ⟨u.accounts, u.storage.entries.map fun e => ⟨e.1, false, e.2⟩, []⟩
  have hst : st'' = st' := by
    simp only [unwindState, hfold, bind, Except.bind] at hrun
    split at hrun
    · cases hrun
    · rw [happ] at hrun
      cases hrun
      rfl
  subst hst
  have hhistory : ∀ m, st''.history m = u.st.history m := by
    intro m
    unfold State.history
    rw [hspec.accHist, hspec.stoHist, hspec.histKeys]
  refine ⟨?_, fun m hm => by rw [hhistory, hu.other m hm]⟩
  rw [hhistory]
  refine hu.collects.eq_empty fun k hk => ?_
  obtain ⟨hhas, hnot⟩ := (hu.has k).1 hk
  exact hnot ((hkeys k).2 hhas)

theorem unwindState_spec (hk : CollisionFree keccak256) (h : Consistent keccak256 st)
    (hrec : (st.history number).Records before st.flat) (hbefore : ∀ a, before.info a = none → before.slot a = 0) :
    ∃ root st', unwindState keccak256 true st number = .ok (root, st') ∧ Consistent keccak256 st' ∧
      Rooted keccak256 root (accountMap keccak256 st') ∧ st'.flat = before ∧
      st'.history number = History.empty ∧ ∀ m, m ≠ number → st'.history m = st.history m := by
  have hkeys : ∀ k, k ∈ keysOf st number ↔ (st.history number).Has k := fun k => mem_keysOf.trans (hrec.key k)
  obtain ⟨u, hfold, hu⟩ := foldlM_undoKey_spec (u := ⟨st, [], Table.empty⟩) (f := before) nodup_keysOf hrec.toCollects
    fun k hk => (hkeys k).1 hk
  have hlive : SameLive st u.st := foldlM_undoKey_live hfold
  obtain ⟨root, st', happ, hspec⟩ := applyChanges_spec hk (hlive.consistent h)
    ⟨u.accounts, u.storage.entries.map fun e => ⟨e.1, false, e.2⟩, []⟩
  have hrun : unwindState keccak256 true st number = .ok (root, st') := by
    simp only [unwindState, Bool.true_eq_false, and_false, if_false, hfold, bind, Except.bind]
    exact happ
  refine ⟨root, st', hrun, hspec.consistent, hspec.root, ?_, unwindState_history hk h hrec.toCollects hrun⟩
  rw [hspec.flat, hlive.flat]
  refine apply_undone hrec hbefore (fun a o => ?_) fun a s v => ?_
  · rw [hu.accounts, hkeys]
    simp
  · rw [hu.slots, hkeys]
    simp

end Unwind

end Boltchain.Store
