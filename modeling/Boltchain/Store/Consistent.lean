import Boltchain.Store.Flat

namespace Boltchain.Store

open Consensus (Bytes)
open Lib

variable (keccak256 : Bytes → B256)

noncomputable def slotMap (st : State) (a : Address) : TrieMap :=
  overHashes (hashedSlot keccak256) fun s => (st.storage.get (slotKey a s)).map slotValue

noncomputable def accountMap (st : State) : TrieMap :=
  overHashes (hashedAddress keccak256) fun a => (st.accounts.get a).map Account.trieValue

/-- The storage tries hold the flat slots, none of which is zero. -/
structure StorageTries (st : State) : Prop where
  stores : ∀ a, Stores keccak256 (st.trieSto (hashedAddress keccak256 a)) (slotMap keccak256 st a)
  rest : ∀ h, h ∉ Set.range (hashedAddress keccak256) → st.trieSto h = fun _ => none
  ne_zero : ∀ a s v, st.storage.get (slotKey a s) = some v → v ≠ 0

structure Consistent (st : State) : Prop extends StorageTries keccak256 st where
  accounts : Stores keccak256 st.trieAcc (accountMap keccak256 st)
  storage_root : ∀ a acc, st.accounts.get a = some acc → Rooted keccak256 acc.storageRoot (slotMap keccak256 st a)
  slot_account : ∀ a s, st.storage.get (slotKey a s) ≠ none → st.accounts.get a ≠ none

/-- Different addresses and different slots have different hashes. -/
structure CollisionFree : Prop where
  address : Function.Injective (hashedAddress keccak256)
  slot : Function.Injective (hashedSlot keccak256)

@[simp] theorem slotKey_inj {a b : Address} {s t : U256} : slotKey a s = slotKey b t ↔ a = b ∧ s = t := by
  simp [slotKey]

@[simp] theorem ofLex_slotKey (a : Address) (s : U256) : ofLex (slotKey a s) = (a, s) := rfl

section Storage

variable {keccak256} {st st' : State} {trie : Trie} {a : Address} {roots : Table Address B256}

theorem get_wipe (b : Address) (s : U256) :
    (st.wipe keccak256 a).storage.get (slotKey b s) = if b = a then none else st.storage.get (slotKey b s) := by
  rw [State.wipe, Table.get_keep]
  by_cases h : b = a
  · simp [h]
  · simp [h]

theorem trieSto_wipe : (st.wipe keccak256 a).trieSto =
    Function.update st.trieSto (hashedAddress keccak256 a) fun _ => none := rfl

theorem slotMap_congr (h : ∀ s, st'.storage.get (slotKey a s) = st.storage.get (slotKey a s)) :
    slotMap keccak256 st' a = slotMap keccak256 st a := by
  unfold slotMap
  congr 1
  funext s
  rw [h]

theorem StorageTries.wipe (hk : CollisionFree keccak256) (h : StorageTries keccak256 st) (a : Address) :
    StorageTries keccak256 (st.wipe keccak256 a) where
  stores b := by
    by_cases hb : b = a
    · subst hb
      have hmap : slotMap keccak256 (st.wipe keccak256 b) b = fun _ => none := by
        unfold slotMap
        simp only [get_wipe, if_true, Option.map_none]
        exact overHashes_none hk.slot
      rw [hmap, trieSto_wipe, Function.update_self]
      exact stores_empty
    · have hmap : slotMap keccak256 (st.wipe keccak256 a) b = slotMap keccak256 st b :=
        slotMap_congr fun s => by rw [get_wipe, if_neg hb]
      rw [hmap, trieSto_wipe, Function.update_of_ne (hk.address.ne hb)]
      exact h.stores b
  rest x hx := by
    rw [trieSto_wipe, Function.update_of_ne fun heq => hx ⟨a, heq.symm⟩]
    exact h.rest x hx
  ne_zero b s v hv := by
    rw [get_wipe] at hv
    split at hv
    · cases hv
    · exact h.ne_zero b s v hv

/-- The tables other than flat storage and storage tries. -/
structure SameRest (st st' : State) : Prop where
  accounts : st'.accounts = st.accounts
  codes : st'.codes = st.codes
  trieAcc : st'.trieAcc = st.trieAcc
  accHist : st'.accHist = st.accHist
  stoHist : st'.stoHist = st.stoHist
  histKeys : st'.histKeys = st.histKeys

theorem SameRest.rfl : SameRest st st := ⟨Eq.refl _, Eq.refl _, Eq.refl _, Eq.refl _, Eq.refl _, Eq.refl _⟩

theorem SameRest.trans {st'' : State} (h : SameRest st st') (h' : SameRest st' st'') : SameRest st st'' :=
  ⟨h'.accounts.trans h.accounts, h'.codes.trans h.codes, h'.trieAcc.trans h.trieAcc, h'.accHist.trans h.accHist,
    h'.stoHist.trans h.stoHist, h'.histKeys.trans h.histKeys⟩

/-- One slot written. -/
theorem writeSlot_spec (hk : CollisionFree keccak256) (hne : ∀ b s v, st.storage.get (slotKey b s) = some v → v ≠ 0)
    (ht : InSession keccak256 trie (slotMap keccak256 st a)) (w : U256 × U256) :
    ∃ st' trie', writeSlot keccak256 a (st, trie) w = .ok (st', trie') ∧ trie'.source = trie.source ∧
      InSession keccak256 trie' (slotMap keccak256 st' a) ∧ SameRest st st' ∧ st'.trieSto = st.trieSto ∧
      (∀ b s v, st'.storage.get (slotKey b s) = some v → v ≠ 0) ∧
      (∀ b s, b ≠ a → st'.storage.get (slotKey b s) = st.storage.get (slotKey b s)) ∧
      st'.slot = Function.update st.slot a (Function.update (st.slot a) w.1 w.2) := by
  -- flat storage after the write, whichever it is
  have hspec : ∀ o : Option U256, (∀ v, o = some v → v ≠ 0) → o.getD 0 = w.2 → ∀ storage : Table SlotKey U256,
      (∀ b s, storage.get (slotKey b s) = if b = a ∧ s = w.1 then o else st.storage.get (slotKey b s)) →
      slotMap keccak256 { st with storage := storage } a =
        Function.update (slotMap keccak256 st a) (hashedSlot keccak256 w.1) (o.map slotValue) ∧
      (∀ b s v, storage.get (slotKey b s) = some v → v ≠ 0) ∧
      (∀ b s, b ≠ a → storage.get (slotKey b s) = st.storage.get (slotKey b s)) ∧
      ({ st with storage := storage } : State).slot = Function.update st.slot a (Function.update (st.slot a) w.1 w.2) := by
    intro o ho hw storage hget
    refine ⟨?_, fun b s v hv => ?_, fun b s hb => ?_, ?_⟩
    · unfold slotMap
      rw [← overHashes_update hk.slot]
      congr 1
      funext s
      by_cases hs : s = w.1
      · simp [hget, hs]
      · simp [hget, hs]
    · rw [hget] at hv
      split at hv
      · exact ho v hv
      · exact hne b s v hv
    · rw [hget, if_neg (by simp [hb])]
    · funext b s
      simp only [State.slot, hget]
      by_cases hb : b = a
      · subst hb
        by_cases hs : s = w.1
        · simp [hs, hw]
        · simp [hs, State.slot]
      · simp [hb, State.slot]
  unfold writeSlot
  by_cases hw : w.2 = 0
  · obtain ⟨trie', hrun, hsource, hsession⟩ := ht.remove (hashedSlot keccak256 w.1)
    obtain ⟨hmap, hne', hother, hslot⟩ := hspec none (by simp) hw.symm (st.storage.del (slotKey a w.1)) fun b s => by
      rw [Table.get_del]
      simp
    refine ⟨{ st with storage := st.storage.del (slotKey a w.1) }, trie', ?_, hsource, ?_,
      ⟨rfl, rfl, rfl, rfl, rfl, rfl⟩, rfl, hne', hother, hslot⟩
    · simp only [if_pos hw, hrun, trieErr, bind, Except.bind]
    · rw [hmap]
      exact hsession
  · obtain ⟨trie', hrun, hsource, hsession⟩ := ht.insert (hashedSlot keccak256 w.1) (slotValue w.2)
    obtain ⟨hmap, hne', hother, hslot⟩ := hspec (some w.2) (by simp [hw]) rfl (st.storage.put (slotKey a w.1) w.2)
      fun b s => by
        rw [Table.get_put]
        simp
    refine ⟨{ st with storage := st.storage.put (slotKey a w.1) w.2 }, trie', ?_, hsource, ?_,
      ⟨rfl, rfl, rfl, rfl, rfl, rfl⟩, rfl, hne', hother, hslot⟩
    · simp only [if_neg hw, hrun, trieErr, bind, Except.bind]
    · rw [hmap]
      exact hsession

theorem foldlM_writeSlot (hk : CollisionFree keccak256) (hne : ∀ b s v, st.storage.get (slotKey b s) = some v → v ≠ 0)
    (ht : InSession keccak256 trie (slotMap keccak256 st a)) (slots : List (U256 × U256)) :
    ∃ st' trie', slots.foldlM (writeSlot keccak256 a) (st, trie) = .ok (st', trie') ∧ trie'.source = trie.source ∧
      InSession keccak256 trie' (slotMap keccak256 st' a) ∧ SameRest st st' ∧ st'.trieSto = st.trieSto ∧
      (∀ b s v, st'.storage.get (slotKey b s) = some v → v ≠ 0) ∧
      (∀ b s, b ≠ a → st'.storage.get (slotKey b s) = st.storage.get (slotKey b s)) ∧
      st'.slot = Function.update st.slot a (slots.foldl (fun f w => Function.update f w.1 w.2) (st.slot a)) := by
  induction slots generalizing st trie with
  | nil => exact ⟨st, trie, rfl, rfl, ht, .rfl, rfl, hne, fun _ _ _ => rfl, (Function.update_eq_self a _).symm⟩
  | cons w slots ih =>
    obtain ⟨st₁, trie₁, hrun₁, hsource₁, ht₁, hsame₁, hsto₁, hne₁, hother₁, hslot₁⟩ := writeSlot_spec hk hne ht w
    obtain ⟨st', trie', hrun, hsource, ht', hsame, hsto, hne', hother, hslot⟩ := ih hne₁ ht₁
    refine ⟨st', trie', ?_, hsource.trans hsource₁, ht', hsame₁.trans hsame, hsto.trans hsto₁, hne',
      fun b s hb => (hother b s hb).trans (hother₁ b s hb), ?_⟩
    · rw [List.foldlM_cons, hrun₁]
      exact hrun
    · rw [hslot, hslot₁, Function.update_self, Function.update_idem, List.foldl_cons]

/-- What applying the storage changes of one account leaves. -/
structure StorageApplied (keccak256 : Bytes → B256) (st : State) (roots : Table Address B256) (c : PlainStorageChangeset) (st' : State)
    (roots' : Table Address B256) : Prop where
  tries : StorageTries keccak256 st'
  same : SameRest st st'
  slot : st'.slot = slotsAfter st.slot c
  other : ∀ b s, b ≠ c.address → st'.storage.get (slotKey b s) = st.storage.get (slotKey b s)
  untouched : (c.wipeStorage || !c.storage.isEmpty) = false → st' = st ∧ roots' = roots
  touched : (c.wipeStorage || !c.storage.isEmpty) = true →
    ∃ r, roots' = roots.put c.address r ∧ Rooted keccak256 r (slotMap keccak256 st' c.address)

theorem slot_wipe : (st.wipe keccak256 a).slot = Function.update st.slot a 0 := by
  funext b s
  rw [State.slot, get_wipe]
  by_cases hb : b = a
  · simp [hb]
  · simp [hb, State.slot]

theorem applyStorage_spec (hk : CollisionFree keccak256) (h : StorageTries keccak256 st)
    (roots : Table Address B256) (c : PlainStorageChangeset) :
    ∃ st' roots', applyStorage keccak256 (st, roots) c = .ok (st', roots') ∧
      StorageApplied keccak256 st roots c st' roots' := by
  -- after a wipe, if there is one
  obtain ⟨st₁, hst₁, htries, hsame, hother, hslot⟩ : ∃ st₁,
      (if c.wipeStorage then st.wipe keccak256 c.address else st) = st₁ ∧ StorageTries keccak256 st₁ ∧ SameRest st st₁ ∧
      (∀ b s, b ≠ c.address → st₁.storage.get (slotKey b s) = st.storage.get (slotKey b s)) ∧
      st₁.slot = Function.update st.slot c.address (if c.wipeStorage then 0 else st.slot c.address) := by
    by_cases hw : c.wipeStorage = true
    · refine ⟨_, if_pos hw, h.wipe hk c.address, ⟨rfl, rfl, rfl, rfl, rfl, rfl⟩, fun b s hb => ?_, ?_⟩
      · rw [get_wipe, if_neg hb]
      · rw [slot_wipe, if_pos hw]
    · refine ⟨_, if_neg hw, h, .rfl, fun _ _ _ => rfl, ?_⟩
      rw [if_neg hw, Function.update_eq_self]
  unfold applyStorage
  simp only [hst₁]
  by_cases hempty : c.storage = []
  · rw [if_pos hempty]
    refine ⟨st₁, _, rfl, htries, hsame, ?_, hother, fun hun => ?_, fun htouched => ?_⟩
    · rw [hslot, slotsAfter, hempty]
      rfl
    · simp only [hempty, List.isEmpty_nil, Bool.not_true, Bool.or_false] at hun
      rw [hun] at hst₁
      exact ⟨hst₁.symm, by simp [hun]⟩
    · simp only [hempty, List.isEmpty_nil, Bool.not_true, Bool.or_false] at htouched
      refine ⟨_, if_pos htouched, ?_⟩
      have hnone : slotMap keccak256 st₁ c.address = fun _ => none := by
        rw [if_pos htouched] at hst₁
        rw [← hst₁]
        unfold slotMap
        simp only [get_wipe, if_true, Option.map_none]
        exact overHashes_none hk.slot
      rw [hnone]
      exact rooted_empty
  · rw [if_neg hempty]
    obtain ⟨st₂, trie, hrun, hsource, ht, hsame₂, hsto, hne, hother₂, hslot₂⟩ := foldlM_writeSlot hk htries.ne_zero
      (htries.stores c.address).session c.storage
    obtain ⟨root, writes, hcommit, hroot, hstores⟩ := ht.commit
    let nodes := applyWrites (st₂.trieSto (hashedAddress keccak256 c.address)) writes
    refine ⟨{ st₂ with trieSto := Function.update st₂.trieSto (hashedAddress keccak256 c.address) nodes },
      roots.put c.address root, ?_, ?_⟩
    · simp only [writeSlots, hrun, hcommit, trieErr, bind, Except.bind, nodes]
    · have hnodes : Stores keccak256 nodes (slotMap keccak256 st₂ c.address) := by
        rw [hsource] at hstores
        simp only [nodes, hsto]
        exact hstores
      refine ⟨⟨fun b => ?_, fun x hx => ?_, hne⟩, hsame.trans ⟨hsame₂.accounts, hsame₂.codes, hsame₂.trieAcc, hsame₂.accHist,
        hsame₂.stoHist, hsame₂.histKeys⟩, ?_, fun b s hb => (hother₂ b s hb).trans (hother b s hb), fun hun => ?_,
        fun _ => ⟨root, rfl, hroot⟩⟩
      · by_cases hb : b = c.address
        · subst hb
          simp only [Function.update_self]
          exact hnodes
        · simp only [Function.update_of_ne (hk.address.ne hb), hsto]
          have hmap : slotMap keccak256 st₂ b = slotMap keccak256 st₁ b := slotMap_congr fun s => hother₂ b s hb
          show Stores keccak256 _ (slotMap keccak256 st₂ b)
          rw [hmap]
          exact htries.stores b
      · simp only
        rw [Function.update_of_ne fun heq => hx ⟨c.address, heq.symm⟩, hsto]
        exact htries.rest x hx
      · show st₂.slot = _
        rw [hslot₂, hslot, Function.update_self, Function.update_idem]
        rfl
      · simp [hempty] at hun

/-- The storage loop, from roots that are right. -/
theorem foldlM_applyStorage (hk : CollisionFree keccak256) (h : StorageTries keccak256 st)
    (hroots : ∀ a r, roots.get a = some r → Rooted keccak256 r (slotMap keccak256 st a))
    (cs : List PlainStorageChangeset) :
    ∃ st' roots', cs.foldlM (applyStorage keccak256) (st, roots) = .ok (st', roots') ∧ StorageTries keccak256 st' ∧
      SameRest st st' ∧ st'.slot = cs.foldl slotsAfter st.slot ∧
      (∀ a r, roots'.get a = some r → Rooted keccak256 r (slotMap keccak256 st' a)) ∧
      (∀ a, roots'.get a = none → ∀ s, st'.storage.get (slotKey a s) = st.storage.get (slotKey a s)) ∧
      ∀ a, (roots'.get a).isSome = ((roots.get a).isSome || touches cs a) := by
  induction cs generalizing st roots with
  | nil => exact ⟨st, roots, rfl, h, .rfl, rfl, hroots, fun _ _ _ => rfl, by simp [touches]⟩
  | cons c cs ih =>
    obtain ⟨st₁, roots₁, hrun₁, happ⟩ := applyStorage_spec hk h roots c
    have hget : ∀ a, a ≠ c.address → roots₁.get a = roots.get a := by
      intro a ha
      cases htouch : (c.wipeStorage || !c.storage.isEmpty) with
      | false => rw [(happ.untouched htouch).2]
      | true =>
        obtain ⟨r, hr, -⟩ := happ.touched htouch
        rw [hr, Table.get_put, if_neg ha]
    have hroots₁ : ∀ a r, roots₁.get a = some r → Rooted keccak256 r (slotMap keccak256 st₁ a) := by
      intro a r hr
      by_cases ha : a = c.address
      · subst ha
        cases htouch : (c.wipeStorage || !c.storage.isEmpty) with
        | false =>
          obtain ⟨rfl, rfl⟩ := happ.untouched htouch
          exact hroots _ r hr
        | true =>
          obtain ⟨r', hr', hrooted⟩ := happ.touched htouch
          rw [hr', Table.get_put, if_pos rfl] at hr
          cases hr
          exact hrooted
      · rw [hget a ha] at hr
        rw [slotMap_congr fun s => happ.other a s ha]
        exact hroots a r hr
    obtain ⟨st', roots', hrun, htries, hsame, hslot, hroots', hother, htouches⟩ := ih happ.tries hroots₁
    refine ⟨st', roots', ?_, htries, happ.same.trans hsame, ?_, hroots', fun a hnone s => ?_, fun a => ?_⟩
    · rw [List.foldlM_cons, hrun₁]
      exact hrun
    · rw [hslot, happ.slot, List.foldl_cons]
    · rw [hother a hnone]
      by_cases ha : a = c.address
      · subst ha
        have hfalse := htouches c.address
        rw [hnone] at hfalse
        cases htouch : (c.wipeStorage || !c.storage.isEmpty) with
        | false => rw [(happ.untouched htouch).1]
        | true =>
          obtain ⟨r, hr, -⟩ := happ.touched htouch
          rw [hr, Table.get_put, if_pos rfl] at hfalse
          simp at hfalse
      · exact happ.other a s ha
    · rw [htouches, touches, touches, List.any_cons]
      by_cases ha : a = c.address
      · subst ha
        cases htouch : (c.wipeStorage || !c.storage.isEmpty) with
        | false => simp [(happ.untouched htouch).2]
        | true =>
          obtain ⟨r, hr, -⟩ := happ.touched htouch
          simp [hr, Table.get_put]
      · simp [hget a ha, Ne.symm ha]

end Storage

section Accounts

variable {keccak256} {st st' : State} {trie : Trie} {a : Address} {roots : Table Address B256}
  {accounts : List (Address × Option AccountInfo)}

theorem get_foldl_put (t : Table Address (Option AccountInfo)) (l : List (Address × Option AccountInfo)) (a : Address) :
    (l.foldl (fun t e => t.put e.1 e.2) t).get a = l.foldl (fun o e => if e.1 = a then some e.2 else o) (t.get a) := by
  induction l generalizing t with
  | nil => rfl
  | cons e l ih =>
    rw [List.foldl_cons, ih, List.foldl_cons, Table.get_put]
    simp only [eq_comm]

theorem get_foldl_keep (f : Address → AccountInfo) (t : Table Address (Option AccountInfo)) (l : List (Address × B256))
    (a : Address) :
    (l.foldl (fun t e => if (t.get e.1).isSome then t else t.put e.1 (some (f e.1))) t).get a =
      if (t.get a).isSome then t.get a else if a ∈ l.map Prod.fst then some (some (f a)) else none := by
  induction l generalizing t with
  | nil =>
    cases h : t.get a <;> simp [h]
  | cons e l ih =>
    rw [List.foldl_cons, ih]
    by_cases he : (t.get e.1).isSome = true
    · rw [if_pos he]
      by_cases ha : a = e.1
      · subst ha
        simp [he]
      · simp only [List.map_cons, List.mem_cons, ha, false_or]
    · rw [if_neg he, Table.get_put]
      by_cases ha : a = e.1
      · subst ha
        simp [he]
      · simp only [List.map_cons, List.mem_cons, ha, false_or, if_false]

theorem get_accountsToWrite (keccak256 : Bytes → B256) (roots : Table Address B256)
    (accounts : List (Address × Option AccountInfo)) (st : State) (a : Address) :
    (accountsToWrite keccak256 st roots accounts).get a =
      match entryOf accounts a with
      | some info => some info
      | none =>
        if (roots.get a).isSome then
          some (some ((st.accounts.get a).getD (Account.default keccak256)).toAccountInfo) else none := by
  have hkeys : a ∈ roots.entries.map Prod.fst ↔ (roots.get a).isSome = true := by
    rw [Option.isSome_iff_exists, List.mem_map]
    constructor
    · rintro ⟨⟨b, r⟩, hmem, rfl⟩
      exact ⟨r, Table.get_eq_some.2 hmem⟩
    · rintro ⟨r, hr⟩
      exact ⟨(a, r), Table.get_eq_some.1 hr, rfl⟩
  have hentry : (accounts.foldl (fun t e => t.put e.1 e.2) Table.empty).get a = entryOf accounts a :=
    get_foldl_put _ _ _
  have hfold := get_foldl_keep (fun b => ((st.accounts.get b).getD (Account.default keccak256)).toAccountInfo)
    (accounts.foldl (fun t e => t.put e.1 e.2) Table.empty) roots.entries a
  rw [accountsToWrite, hfold, hentry]
  cases entryOf accounts a with
  | some info => rfl
  | none => simp [hkeys]

def recordOf (keccak256 : Bytes → B256) (st : State) (roots : Table Address B256) (a : Address) (info : AccountInfo) :
    Account :=
  { info with
    storageRoot := (roots.get a).getD
      (((st.accounts.get a).map Account.storageRoot).getD (Trie.emptyRootHash keccak256)) }

structure AccountWritten (keccak256 : Bytes → B256) (st : State) (roots : Table Address B256) (w : Address × Option AccountInfo) (st' : State) :
    Prop where
  codes : st'.codes = st.codes
  trieAcc : st'.trieAcc = st.trieAcc
  accHist : st'.accHist = st.accHist
  stoHist : st'.stoHist = st.stoHist
  histKeys : st'.histKeys = st.histKeys
  account : st'.accounts.get w.1 = w.2.map (recordOf keccak256 st roots w.1)
  slot : ∀ s, st'.storage.get (slotKey w.1 s) = if w.2 = none then none else st.storage.get (slotKey w.1 s)
  other : ∀ b, b ≠ w.1 → st'.accounts.get b = st.accounts.get b ∧
    ∀ s, st'.storage.get (slotKey b s) = st.storage.get (slotKey b s)

theorem accountMap_update (hk : CollisionFree keccak256) {o : Option Account}
    (h : ∀ b, st'.accounts.get b = if b = a then o else st.accounts.get b) :
    accountMap keccak256 st' =
      Function.update (accountMap keccak256 st) (hashedAddress keccak256 a) (o.map Account.trieValue) := by
  unfold accountMap
  rw [← overHashes_update hk.address]
  congr 1
  funext b
  by_cases hb : b = a
  · simp [h, hb]
  · simp [h, hb]

theorem writeAccount_spec (roots : Table Address B256) (hk : CollisionFree keccak256) (htries : StorageTries keccak256 st)
    (ht : InSession keccak256 trie (accountMap keccak256 st)) (w : Address × Option AccountInfo) :
    ∃ st' trie', writeAccount keccak256 roots (st, trie) w = .ok (st', trie') ∧ trie'.source = trie.source ∧
      InSession keccak256 trie' (accountMap keccak256 st') ∧ StorageTries keccak256 st' ∧
      AccountWritten keccak256 st roots w st' := by
  obtain ⟨a, _ | info⟩ := w
  · obtain ⟨trie', hrun, hsource, hsession⟩ := ht.remove (hashedAddress keccak256 a)
    have htries' := htries.wipe hk a
    refine ⟨{ st.wipe keccak256 a with accounts := st.accounts.del a }, trie', ?_, hsource, ?_,
      ⟨htries'.stores, htries'.rest, htries'.ne_zero⟩, rfl, rfl, rfl, rfl, rfl, ?_, fun s => ?_, fun b hb => ⟨?_, fun s => ?_⟩⟩
    · simp only [writeAccount, hrun, trieErr, bind, Except.bind]
    · rw [accountMap_update hk (o := none) fun b => Table.get_del]
      exact hsession
    · simp [Table.get_del]
    · show (st.wipe keccak256 a).storage.get _ = _
      rw [get_wipe, if_pos rfl, if_pos rfl]
    · simp [Table.get_del, hb]
    · show (st.wipe keccak256 a).storage.get _ = _
      rw [get_wipe, if_neg hb]
  · obtain ⟨trie', hrun, hsource, hsession⟩ := ht.insert (hashedAddress keccak256 a)
      (recordOf keccak256 st roots a info).trieValue
    refine ⟨{ st with accounts := st.accounts.put a (recordOf keccak256 st roots a info) }, trie', ?_, hsource, ?_,
      ⟨htries.stores, htries.rest, htries.ne_zero⟩, rfl, rfl, rfl, rfl, rfl, ?_, fun s => ?_, fun b hb => ⟨?_, fun s => rfl⟩⟩
    · simp only [recordOf] at hrun
      simp only [writeAccount, hrun, trieErr, bind, Except.bind]
      rfl
    · rw [accountMap_update hk (o := some (recordOf keccak256 st roots a info)) fun b => Table.get_put]
      exact hsession
    · simp [Table.get_put]
    · simp
    · simp [Table.get_put, hb]

/-- The account loop. -/
theorem foldlM_writeAccount (roots : Table Address B256) (hk : CollisionFree keccak256) (htries : StorageTries keccak256 st)
    (ht : InSession keccak256 trie (accountMap keccak256 st)) {l : List (Address × Option AccountInfo)}
    (hl : (l.map Prod.fst).Nodup) :
    ∃ st' trie', l.foldlM (writeAccount keccak256 roots) (st, trie) = .ok (st', trie') ∧ trie'.source = trie.source ∧
      InSession keccak256 trie' (accountMap keccak256 st') ∧ StorageTries keccak256 st' ∧
      st'.codes = st.codes ∧ st'.trieAcc = st.trieAcc ∧ st'.accHist = st.accHist ∧ st'.stoHist = st.stoHist ∧
      st'.histKeys = st.histKeys ∧
      (∀ a o, (a, o) ∈ l → st'.accounts.get a = o.map (recordOf keccak256 st roots a) ∧
        ∀ s, st'.storage.get (slotKey a s) = if o = none then none else st.storage.get (slotKey a s)) ∧
      ∀ a, a ∉ l.map Prod.fst → st'.accounts.get a = st.accounts.get a ∧
        ∀ s, st'.storage.get (slotKey a s) = st.storage.get (slotKey a s) := by
  induction l generalizing st trie with
  | nil => exact ⟨st, trie, rfl, rfl, ht, htries, rfl, rfl, rfl, rfl, rfl, by simp, fun _ _ => ⟨rfl, fun _ => rfl⟩⟩
  | cons w l ih =>
    obtain ⟨hw, hl⟩ := List.nodup_cons.1 hl
    obtain ⟨st₁, trie₁, hrun₁, hsource₁, ht₁, htries₁, h₁⟩ := writeAccount_spec roots hk htries ht w
    obtain ⟨st', trie', hrun, hsource, ht', htries', hcodes, htrieAcc, hacc, hsto, hkeys, hmem, hnot⟩ := ih htries₁ ht₁ hl
    refine ⟨st', trie', ?_, hsource.trans hsource₁, ht', htries', hcodes.trans h₁.codes, htrieAcc.trans h₁.trieAcc,
      hacc.trans h₁.accHist, hsto.trans h₁.stoHist, hkeys.trans h₁.histKeys, fun a o hao => ?_, fun a ha => ?_⟩
    · rw [List.foldlM_cons, hrun₁]
      exact hrun
    · rcases List.mem_cons.1 hao with rfl | hao
      · obtain ⟨hacc', hslot'⟩ := hnot a hw
        exact ⟨hacc'.trans h₁.account, fun s => (hslot' s).trans (h₁.slot s)⟩
      · have haw : a ≠ w.1 := by
          rintro rfl
          exact hw (List.mem_map.2 ⟨_, hao, rfl⟩)
        obtain ⟨hacc', hslot'⟩ := hmem a o hao
        obtain ⟨hacc₁, hslot₁⟩ := h₁.other a haw
        refine ⟨?_, fun s => ?_⟩
        · rw [hacc']
          unfold recordOf
          rw [hacc₁]
        · rw [hslot', hslot₁]
    · rw [List.map_cons, List.mem_cons, not_or] at ha
      obtain ⟨hacc', hslot'⟩ := hnot a ha.2
      obtain ⟨hacc₁, hslot₁⟩ := h₁.other a ha.1
      exact ⟨hacc'.trans hacc₁, fun s => (hslot' s).trans (hslot₁ s)⟩

end Accounts

section Changes

variable {keccak256} {st : State}

theorem slotMap_none (hk : CollisionFree keccak256) {a : Address} (h : ∀ s, st.storage.get (slotKey a s) = none) :
    slotMap keccak256 st a = fun _ => none := by
  unfold slotMap
  simp only [h, Option.map_none]
  exact overHashes_none hk.slot

structure Applied (keccak256 : Bytes → B256) (st : State) (changes : StateChangeset) (root : B256) (st' : State) :
    Prop where
  consistent : Consistent keccak256 st'
  root : Rooted keccak256 root (accountMap keccak256 st')
  flat : st'.flat = st.flat.apply keccak256 changes
  codes : st'.codes = putCodes st.codes changes.contracts
  accHist : st'.accHist = st.accHist
  stoHist : st'.stoHist = st.stoHist
  histKeys : st'.histKeys = st.histKeys

/-- Any changes can be applied to a consistent state and leave one; the root is that of the accounts. -/
theorem applyChanges_spec (hk : CollisionFree keccak256) (h : Consistent keccak256 st) (changes : StateChangeset) :
    ∃ root st', applyChanges keccak256 st changes = .ok (root, st') ∧ Applied keccak256 st changes root st' := by
  have hstart : StorageTries keccak256 { st with codes := putCodes st.codes changes.contracts } :=
    ⟨h.stores, h.rest, h.ne_zero⟩
  have hnone : ∀ a r, (Table.empty : Table Address B256).get a = some r → Rooted keccak256 r
      (slotMap keccak256 { st with codes := putCodes st.codes changes.contracts } a) := by simp
  obtain ⟨st₁, roots, hrun₁, htries₁, hsame₁, hslot₁, hroots, huntouched, htouches⟩ :=
    foldlM_applyStorage hk hstart hnone changes.storage
  have hsession : InSession keccak256 (Trie.new st₁.trieAcc) (accountMap keccak256 st₁) := by
    have hmap : accountMap keccak256 st₁ = accountMap keccak256 st := by
      unfold accountMap
      rw [hsame₁.accounts]
    rw [hmap, hsame₁.trieAcc]
    exact h.accounts.session
  obtain ⟨st₂, trie, hrun₂, hsource, ht, htries₂, hcodes₂, htrieAcc₂, hacc₂, hsto₂, hkeys₂, hmem, hnot⟩ :=
    foldlM_writeAccount roots hk htries₁ hsession
      (accountsToWrite keccak256 st₁ roots changes.accounts).nodup_keys
  obtain ⟨root, writes, hcommit, hroot, hstores⟩ := ht.commit
  have hget := fun a => get_accountsToWrite keccak256 roots changes.accounts st₁ a
  generalize hinfos : accountsToWrite keccak256 st₁ roots changes.accounts = infos at *
  -- an address that is not written has neither an entry nor storage changes
  have hwritten : ∀ a o, infos.get a = some o → st₂.accounts.get a = o.map (recordOf keccak256 st₁ roots a) ∧
      ∀ s, st₂.storage.get (slotKey a s) = if o = none then none else st₁.storage.get (slotKey a s) :=
    fun a o ho => hmem a o (Table.get_eq_some.1 ho)
  have hunwritten : ∀ a, infos.get a = none → st₂.accounts.get a = st.accounts.get a ∧
      ∀ s, st₂.storage.get (slotKey a s) = st₁.storage.get (slotKey a s) := by
    intro a ha
    obtain ⟨hacc, hslot⟩ := hnot a fun hmem => by
      obtain ⟨⟨b, o⟩, hbo, rfl⟩ := List.mem_map.1 hmem
      rw [Table.get_eq_some.2 hbo] at ha
      cases ha
    exact ⟨hacc.trans (by rw [hsame₁.accounts]), hslot⟩
  have hrootsNone : ∀ a, infos.get a = none → roots.get a = none := by
    intro a ha
    rw [hget] at ha
    by_contra hne
    rw [if_pos (Option.isSome_iff_ne_none.2 hne)] at ha
    cases hentry : entryOf changes.accounts a <;> simp [hentry] at ha
  have hkeep : ∀ a, roots.get a = none → ∀ s, st₁.storage.get (slotKey a s) = st.storage.get (slotKey a s) := huntouched
  refine ⟨root, { st₂ with trieAcc := applyWrites st₂.trieAcc writes }, ?_, ⟨⟨htries₂.stores, htries₂.rest,
    htries₂.ne_zero⟩, ?_, fun a acc hacc => ?_, fun a s hslot => ?_⟩, hroot, ?_, hcodes₂.trans hsame₁.codes,
    hacc₂.trans hsame₁.accHist, hsto₂.trans hsame₁.stoHist, hkeys₂.trans hsame₁.histKeys⟩
  · simp only [applyChanges, hrun₁, hinfos, hrun₂, hcommit, trieErr, bind, Except.bind]
  · rw [hsource] at hstores
    rw [htrieAcc₂]
    exact hstores
  · show Rooted keccak256 acc.storageRoot (slotMap keccak256 st₂ a)
    have hacc : st₂.accounts.get a = some acc := hacc
    cases ho : infos.get a with
    | none =>
      obtain ⟨hsame, hslots⟩ := hunwritten a ho
      have hmap : slotMap keccak256 st₂ a = slotMap keccak256 st a :=
        slotMap_congr fun s => (hslots s).trans (hkeep a (hrootsNone a ho) s)
      rw [hmap]
      exact h.storage_root a acc (hsame ▸ hacc)
    | some o =>
      obtain ⟨hrecord, hslots⟩ := hwritten a o ho
      cases o with
      | none => simp [hrecord] at hacc
      | some info =>
        have hmap : slotMap keccak256 st₂ a = slotMap keccak256 st₁ a :=
          slotMap_congr fun s => (hslots s).trans (if_neg (by simp))
        rw [hrecord] at hacc
        cases hacc
        rw [hmap]
        show Rooted keccak256 ((roots.get a).getD _) _
        cases hr : roots.get a with
        | some r => exact hroots a r hr
        | none =>
          rw [Option.getD_none, slotMap_congr (hkeep a hr), hsame₁.accounts]
          show Rooted keccak256 (((st.accounts.get a).map Account.storageRoot).getD _) _
          cases hold : st.accounts.get a with
          | some old => exact h.storage_root a old hold
          | none =>
            have hnone : ∀ s, st.storage.get (slotKey a s) = none := fun s =>
              by_contra fun hne => h.slot_account a s hne hold
            rw [slotMap_none hk hnone]
            exact rooted_empty
  · show st₂.accounts.get a ≠ none
    have hslot : st₂.storage.get (slotKey a s) ≠ none := hslot
    cases ho : infos.get a with
    | none =>
      obtain ⟨hsame, hslots⟩ := hunwritten a ho
      rw [hslots, hkeep a (hrootsNone a ho)] at hslot
      rw [hsame]
      exact h.slot_account a s hslot
    | some o =>
      obtain ⟨hrecord, hslots⟩ := hwritten a o ho
      cases o with
      | none => simp [hslots] at hslot
      | some info => simp [hrecord]
  · refine Flat.ext (funext fun a => ?_) (funext fun a => funext fun s => ?_)
    · show (st₂.accounts.get a).map Account.toAccountInfo = _
      simp only [Flat.apply]
      have htouch := htouches a
      simp only [Table.get_empty, Option.isSome_none, Bool.false_or] at htouch
      have hgeta := hget a
      rw [htouch] at hgeta
      cases hentry : entryOf changes.accounts a with
      | some o =>
        simp only [hentry] at hgeta
        rw [(hwritten a o hgeta).1]
        cases o <;> rfl
      | none =>
        simp only [hentry] at hgeta
        cases ht : touches changes.storage a with
        | true =>
          rw [ht, if_pos rfl] at hgeta
          rw [(hwritten a _ hgeta).1, hsame₁.accounts]
          simp only [if_true, Option.map_some, State.flat]
          cases st.accounts.get a <;> rfl
        | false =>
          rw [ht] at hgeta
          rw [(hunwritten a hgeta).1]
          rfl
    · show (st₂.storage.get (slotKey a s)).getD 0 = _
      simp only [Flat.apply]
      have hfold : st₁.slot a s = changes.storage.foldl slotsAfter st.flat.slot a s := by
        rw [hslot₁]
        rfl
      have hgeta := hget a
      cases hentry : entryOf changes.accounts a with
      | some o =>
        simp only [hentry] at hgeta
        rw [(hwritten a o hgeta).2 s]
        cases o with
        | none => rfl
        | some info =>
          simp only [reduceCtorEq, if_false, Option.some.injEq]
          exact hfold
      | none =>
        simp only [hentry] at hgeta
        simp only [reduceCtorEq, if_false]
        rw [← hfold]
        split at hgeta
        · rw [(hwritten a _ hgeta).2 s]
          rfl
        · rw [(hunwritten a hgeta).2 s]
          rfl

end Changes

end Boltchain.Store
