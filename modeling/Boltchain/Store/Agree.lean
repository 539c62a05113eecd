import Boltchain.Store.Consistent
import Boltchain.Store.Snapshot
import Boltchain.Store.TrieProof

namespace Boltchain.Store

open Consensus (Bytes)
open Lib

section Root

variable (keccak256 : Bytes → B256)

def slotEntries (st : State) (addr : Address) : List (B256 × Value) :=
  (st.storage.entries.filter fun e => (ofLex e.1).1 = addr).map fun e =>
    (hashedSlot keccak256 (ofLex e.1).2, slotValue e.2)

def fullStateRoot (st : State) : B256 :=
  mptRoot keccak256 (st.accounts.entries.map fun e =>
    (hashedAddress keccak256 e.1,
      ({ e.2 with storageRoot := mptRoot keccak256 (slotEntries keccak256 st e.1) } : Account).trieValue))

end Root

section Consistency

variable {keccak256 : Bytes → B256} {st st' : State}

theorem lists_slotEntries (hk : CollisionFree keccak256) (st : State) (a : Address) :
    Lists (slotEntries keccak256 st a) (slotMap keccak256 st a) := by
  have hlists := lists_overHashes hk.slot (f := fun s => (st.storage.get (slotKey a s)).map slotValue)
    ((st.storage.entries.filter fun e => (ofLex e.1).1 = a).map fun e => ((ofLex e.1).2, slotValue e.2)) ?_ ?_
  · rw [List.map_map] at hlists
    exact hlists
  · rw [List.map_map]
    refine (List.Nodup.of_map (fun p : SlotKey × U256 => p.1) ?_).map_on fun x hx y hy hxy => ?_
    · exact st.storage.nodup_keys.sublist (List.filter_sublist.map _)
    · obtain ⟨hxm, hxa⟩ := List.mem_filter.1 hx
      obtain ⟨hym, hya⟩ := List.mem_filter.1 hy
      have hkey : x.1 = y.1 := by
        have hxa : (ofLex x.1).1 = a := by simpa using hxa
        have hya : (ofLex y.1).1 = a := by simpa using hya
        exact ofLex.injective (Prod.ext (hxa.trans hya.symm) hxy)
      exact List.inj_on_of_nodup_map st.storage.nodup_keys hxm hym hkey
  · intro s v
    simp only [List.mem_map, List.mem_filter, decide_eq_true_eq, Prod.mk.injEq, Option.map_eq_some_iff]
    constructor
    · rintro ⟨⟨k, w⟩, ⟨hmem, rfl⟩, rfl, rfl⟩
      exact ⟨w, Table.get_eq_some.2 hmem, rfl⟩
    · rintro ⟨w, hw, rfl⟩
      exact ⟨(slotKey a s, w), ⟨Table.get_eq_some.1 hw, rfl⟩, rfl, rfl⟩

theorem lists_accounts (hk : CollisionFree keccak256) (st : State) :
    Lists (st.accounts.entries.map fun e => (hashedAddress keccak256 e.1, e.2.trieValue)) (accountMap keccak256 st) := by
  have hlists := lists_overHashes hk.address (f := fun a => (st.accounts.get a).map Account.trieValue)
    (st.accounts.entries.map fun e => (e.1, e.2.trieValue)) ?_ ?_
  · rw [List.map_map] at hlists
    exact hlists
  · rw [List.map_map]
    exact st.accounts.nodup_keys
  · intro a v
    simp only [List.mem_map, Prod.mk.injEq, Option.map_eq_some_iff]
    constructor
    · rintro ⟨⟨b, acc⟩, hmem, rfl, rfl⟩
      exact ⟨acc, Table.get_eq_some.2 hmem, rfl⟩
    · rintro ⟨acc, hacc, rfl⟩
      exact ⟨(a, acc), Table.get_eq_some.1 hacc, rfl, rfl⟩

theorem Consistent.storageRoot_eq (hk : CollisionFree keccak256) (h : Consistent keccak256 st) {a : Address}
    {acc : Account} (hacc : st.accounts.get a = some acc) :
    acc.storageRoot = mptRoot keccak256 (slotEntries keccak256 st a) :=
  (h.storage_root a acc hacc).eq_mptRoot (lists_slotEntries hk st a)

theorem Consistent.root_eq (hk : CollisionFree keccak256) (h : Consistent keccak256 st) {root : B256}
    (hroot : Rooted keccak256 root (accountMap keccak256 st)) : root = fullStateRoot keccak256 st := by
  rw [hroot.eq_mptRoot (lists_accounts hk st), fullStateRoot]
  congr 1
  refine List.map_congr_left fun e he => ?_
  rw [← h.storageRoot_eq hk (Table.mem_entries_iff.1 he)]

theorem Consistent.congr (h : Consistent keccak256 st) (haccounts : st'.accounts = st.accounts)
    (hstorage : st'.storage = st.storage) (htrieAcc : st'.trieAcc = st.trieAcc) (htrieSto : st'.trieSto = st.trieSto) :
    Consistent keccak256 st' := by
  obtain ⟨⟨hstores, hrest, hne⟩, hacc, hroot, hslot⟩ := h
  have hmap : ∀ a, slotMap keccak256 st' a = slotMap keccak256 st a := fun a => slotMap_congr fun s => by rw [hstorage]
  have haccMap : accountMap keccak256 st' = accountMap keccak256 st := by
    unfold accountMap
    rw [haccounts]
  refine ⟨⟨fun a => ?_, ?_, ?_⟩, ?_, fun a acc ha => ?_, ?_⟩
  · rw [hmap, htrieSto]
    exact hstores a
  · rw [htrieSto]
    exact hrest
  · rw [hstorage]
    exact hne
  · rw [haccMap, htrieAcc]
    exact hacc
  · rw [hmap]
    rw [haccounts] at ha
    exact hroot a acc ha
  · rw [hstorage, haccounts]
    exact hslot

theorem consistent_empty (hk : CollisionFree keccak256) (codes : B256 → Option Bytes) :
    Consistent keccak256 { State.empty with codes } where
  stores a := by
    rw [slotMap_none hk fun s => rfl]
    exact stores_empty
  rest _ _ := rfl
  ne_zero _ _ _ h := by cases h
  accounts := by
    have hmap : accountMap keccak256 { State.empty with codes } = fun _ => none := overHashes_none hk.address
    rw [hmap]
    exact stores_empty
  storage_root _ _ h := by cases h
  slot_account _ _ h := absurd rfl h

end Consistency

structure SameLive (st st' : State) : Prop where
  accounts : st'.accounts = st.accounts
  storage : st'.storage = st.storage
  codes : st'.codes = st.codes
  trieAcc : st'.trieAcc = st.trieAcc
  trieSto : st'.trieSto = st.trieSto

section History

variable {keccak256 : Bytes → B256} {st st' st'' : State}

theorem SameLive.rfl : SameLive st st := ⟨Eq.refl _, Eq.refl _, Eq.refl _, Eq.refl _, Eq.refl _⟩

theorem SameLive.trans (h : SameLive st st') (h' : SameLive st' st'') : SameLive st st'' :=
  ⟨h'.accounts.trans h.accounts, h'.storage.trans h.storage, h'.codes.trans h.codes, h'.trieAcc.trans h.trieAcc,
    h'.trieSto.trans h.trieSto⟩

theorem SameLive.foldl {α : Type} {f : State → α → State} (hf : ∀ st a, SameLive st (f st a)) (st : State) (l : List α) :
    SameLive st (l.foldl f st) := by
  induction l generalizing st with
  | nil => exact .rfl
  | cons a l ih => exact (hf st a).trans (ih (f st a))

theorem SameLive.consistent (h : SameLive st st') (hst : Consistent keccak256 st) : Consistent keccak256 st' :=
  hst.congr h.accounts h.storage h.trieAcc h.trieSto

theorem SameLive.flat (h : SameLive st st') : st'.flat = st.flat := by
  unfold State.flat State.slot
  rw [h.accounts, h.storage]

theorem writeHistory_live (st : State) (number : Nat) (reverts : PlainStateReverts) :
    SameLive st (writeHistory st number reverts) := by
  refine (SameLive.foldl (fun st r => ?_) st _).trans (SameLive.foldl (fun st s => ?_) _ _)
  · exact ⟨rfl, rfl, rfl, rfl, rfl⟩
  · refine SameLive.foldl (f := recordSlot number s.address) (fun st r => ?_) st _
    exact ⟨rfl, rfl, rfl, rfl, rfl⟩

theorem pruneHistory_live (st : State) (head : Nat) : SameLive st (pruneHistory st head) := by
  unfold pruneHistory
  split
  · exact .rfl
  · refine SameLive.foldl (fun st k => ?_) st _
    unfold pruneKey
    split <;> exact ⟨rfl, rfl, rfl, rfl, rfl⟩

theorem undoKey_live {number : Nat} {u u' : Undo} {k : HistKey} (h : undoKey number u k = .ok u') :
    SameLive u.st u'.st := by
  unfold undoKey at h
  split at h <;> split at h <;> cases h <;> exact ⟨rfl, rfl, rfl, rfl, rfl⟩

theorem foldlM_undoKey_live {number : Nat} {u u' : Undo} {keys : List HistKey}
    (h : keys.foldlM (undoKey number) u = .ok u') : SameLive u.st u'.st := by
  induction keys generalizing u with
  | nil =>
    cases h
    exact .rfl
  | cons k keys ih =>
    rw [List.foldlM_cons] at h
    cases hk : undoKey number u k with
    | error e =>
      rw [hk] at h
      cases h
    | ok u₁ =>
      rw [hk] at h
      exact (undoKey_live hk).trans (ih h)

end History

section Runs

variable {c : Hashes} {db db' : Db} {r : Option B256}

/-- The state agrees with its tries, and with the root just returned. -/
structure Agrees (c : Hashes) (s : Option B256 × Db) : Prop where
  consistent : Consistent c.keccak256 s.2.state
  root : ∀ r, s.1 = some r → Rooted c.keccak256 r (accountMap c.keccak256 s.2.state)

theorem unwindState_agrees (hk : CollisionFree c.keccak256) {covers : Bool} {st st' : State} {number : Nat} {root : B256}
    (h : Consistent c.keccak256 st) (hrun : unwindState c.keccak256 covers st number = .ok (root, st')) :
    Consistent c.keccak256 st' ∧ Rooted c.keccak256 root (accountMap c.keccak256 st') := by
  unfold unwindState at hrun
  simp only at hrun
  split at hrun
  · cases hrun
  · cases hfold : (keysOf st number).foldlM (undoKey number) ⟨st, [], Table.empty⟩ with
    | error e =>
      rw [hfold] at hrun
      cases hrun
    | ok u =>
      rw [hfold] at hrun
      have hlive : SameLive st u.st := foldlM_undoKey_live hfold
      obtain ⟨root', st'', happ, hspec⟩ := applyChanges_spec hk (hlive.consistent h) ⟨u.accounts,
        u.storage.entries.map fun e => ⟨e.1, false, e.2⟩, []⟩
      obtain ⟨rfl, rfl⟩ : root' = root ∧ st'' = st' := by
        have := happ.symm.trans hrun
        simpa using this
      exact ⟨hspec.consistent, hspec.root⟩

/-- Every operation keeps flat state and tries in step. -/
theorem StoreOp.run_agrees (hk : CollisionFree c.keccak256) (h : Consistent c.keccak256 db.state) {op : StoreOp}
    (hrun : op.run c db = .ok (r, db')) : Agrees c (r, db') := by
  cases op with
  | applyBundle number bundle =>
    obtain ⟨root, st', happ, hspec⟩ := applyChanges_spec hk ((writeHistory_live db.state number bundle.reverts).consistent h)
      bundle.changes
    simp only [StoreOp.run, Store.applyBundle, happ, bind, Except.bind, Except.ok.injEq, Prod.mk.injEq] at hrun
    obtain ⟨rfl, rfl⟩ := hrun
    exact ⟨hspec.consistent, fun r hr => by cases hr; exact hspec.root⟩
  | putBlock block receipts =>
    cases hrun
    exact ⟨h, by simp⟩
  | pruneHistory head =>
    cases hrun
    exact ⟨(pruneHistory_live db.state head).consistent h, by simp⟩
  | unwindHead =>
    simp only [StoreOp.run, Store.unwindHead] at hrun
    split at hrun
    · cases hrun
    · cases hrun
    · rename_i p hhead
      cases hstate : unwindState c.keccak256 (db.blocks.historyCovers (p + 1)) db.state (p + 1) with
      | error e =>
        rw [hstate] at hrun
        cases hrun
      | ok x =>
        rw [hstate] at hrun
        obtain ⟨root, st'⟩ := x
        obtain ⟨hcons, hroot⟩ := unwindState_agrees hk h hstate
        cases hblocks : removeHeadBlock c db.blocks (p + 1) with
        | error e =>
          rw [hblocks] at hrun
          cases hrun
        | ok y =>
          rw [hblocks] at hrun
          cases hrun
          exact ⟨hcons, fun r hr => by cases hr; exact hroot⟩
  | resetState =>
    cases hrun
    exact ⟨consistent_empty hk db.state.codes, by simp⟩
  | applySnapshot entries =>
    simp only [StoreOp.run, applySnapshotEntries] at hrun
    cases hchanges : entries.foldlM snapEntry ⟨[], [], []⟩ with
    | error e =>
      rw [hchanges] at hrun
      cases hrun
    | ok changes =>
      rw [hchanges] at hrun
      obtain ⟨root, st', happ, hspec⟩ := applyChanges_spec hk h changes
      simp only [bind, Except.bind, happ, Except.ok.injEq, Prod.mk.injEq] at hrun
      obtain ⟨rfl, rfl⟩ := hrun
      exact ⟨hspec.consistent, fun r hr => by cases hr; exact hspec.root⟩

theorem StoreOp.foldl_agrees (hk : CollisionFree c.keccak256) {s : Option B256 × Db} (h : Agrees c s)
    (ops : List StoreOp) : Agrees c (ops.foldl (StoreOp.step c) s) := by
  induction ops generalizing s with
  | nil => exact h
  | cons op ops ih =>
    refine ih ?_
    unfold StoreOp.step
    split
    case h_1 s' hrun => exact StoreOp.run_agrees hk h.consistent hrun
    case h_2 => exact h

end Runs

section Mock

def mockKeccak (bs : Bytes) : B256 := ⟨(bs ++ List.replicate 32 0).take 32, by simp⟩

theorem mockKeccak_beBytes {w m n : Nat} (hw : w ≤ 32) (hm : m < 256 ^ w) (hn : n < 256 ^ w)
    (h : mockKeccak (beBytes w m) = mockKeccak (beBytes w n)) : m = n := by
  refine beBytes_inj hm hn ?_
  have hbytes := congrArg (fun b => b.bytes.take w) h
  simpa [mockKeccak, List.take_take, hw, List.take_append_of_le_length, length_beBytes, List.take_of_length_le] using hbytes

theorem collisionFree_mockKeccak : CollisionFree mockKeccak where
  address a b h := by
    unfold hashedAddress at h
    exact Fin.ext (mockKeccak_beBytes (by omega) (a.isLt.trans_eq (by norm_num)) (b.isLt.trans_eq (by norm_num)) h)
  slot a b h := by
    unfold hashedSlot at h
    exact Fin.ext (mockKeccak_beBytes (by omega) (a.isLt.trans_eq (by norm_num)) (b.isLt.trans_eq (by norm_num)) h)

def mockHashes : Hashes := ⟨mockKeccak, fun h => mockKeccak (beBytes 8 h.number ++ h.rest), fun a _ => a⟩

def Blocks.empty : Blocks where
  head := none
  base := 0
  addressIndexFrom := none
  headers := fun _ => none
  hashNum := fun _ => none
  bodies := fun _ => none
  senders := fun _ => none
  receipts := fun _ => none
  txIndex := fun _ => none
  td := fun _ => none
  envelopes := fun _ => none
  addrTx := fun _ => none

end Mock

/-- From a genesis state on, after any operations, those that fail dropped: the root returned last is the one
recomputed from the flat tables, every account's storage root is that of its flat slots, and no slot exists without
an account. -/
theorem flat_state_and_tries_agree (c : Hashes) (hk : CollisionFree c.keccak256) (blocks : Blocks)
    (alloc : List (Address × InitAccount)) :
    ∃ root₀ st₀, initState c.keccak256 State.empty alloc = .ok (root₀, st₀) ∧
      ∀ (ops : List StoreOp) (r : Option B256) (db : Db),
        ops.foldl (StoreOp.step c) (some root₀, ⟨st₀, blocks⟩) = (r, db) →
        (∀ root, r = some root → root = fullStateRoot c.keccak256 db.state) ∧
        (∀ a acc, db.state.accounts.get a = some acc →
          acc.storageRoot = mptRoot c.keccak256 (slotEntries c.keccak256 db.state a)) ∧
        ∀ a s, db.state.storage.get (slotKey a s) ≠ none → db.state.accounts.get a ≠ none := by
  obtain ⟨root₀, st₀, hgenesis, hspec⟩ := applyChanges_spec hk (consistent_empty hk State.empty.codes)
    (initChanges c.keccak256 alloc)
  refine ⟨root₀, st₀, hgenesis, fun ops r db hrun => ?_⟩
  have hstart : Agrees c (some root₀, ⟨st₀, blocks⟩) :=
    ⟨hspec.consistent, fun r hr => by cases hr; exact hspec.root⟩
  have h := StoreOp.foldl_agrees hk hstart ops
  rw [hrun] at h
  exact ⟨fun root hroot => h.consistent.root_eq hk (h.root root hroot),
    fun a acc hacc => h.consistent.storageRoot_eq hk hacc, h.consistent.slot_account⟩

theorem flat_state_and_tries_agree_mock :
    ∃ root₀ st₀, initState mockKeccak State.empty [(1, ⟨0, 7, [], [(2, 3)]⟩)] = .ok (root₀, st₀) ∧
      ∀ (ops : List StoreOp) (r : Option B256) (db : Db),
        ops.foldl (StoreOp.step mockHashes) (some root₀, ⟨st₀, .empty⟩) = (r, db) →
        (∀ root, r = some root → root = fullStateRoot mockKeccak db.state) ∧
        (∀ a acc, db.state.accounts.get a = some acc →
          acc.storageRoot = mptRoot mockKeccak (slotEntries mockKeccak db.state a)) ∧
        ∀ a s, db.state.storage.get (slotKey a s) ≠ none → db.state.accounts.get a ≠ none :=
  flat_state_and_tries_agree mockHashes collisionFree_mockKeccak .empty _

section Served

variable (keccak256 : Bytes → B256) (st : State) (addr : Address)

def accountProof : Except StoreError (List Bytes) := trieErr (proof st.trieAcc (hashedAddress keccak256 addr))

def storageProof (slot : U256) : Except StoreError (List Bytes) :=
  trieErr (proof (st.trieSto (hashedAddress keccak256 addr)) (hashedSlot keccak256 slot))

variable {keccak256} {nodes : Path → Option Bytes} {root : B256} {map : TrieMap}

theorem Rooted.proof_verified (hroot : Rooted keccak256 root map) (h : Stores keccak256 nodes map) (key : B256) :
    ∃ ps, trieErr (proof nodes key) = .ok ps ∧ verifyProof keccak256 root key ps = some ((map key).map Value.bytes) := by
  obtain ⟨s, hs, rfl⟩ := h
  obtain rfl := hroot.unique ⟨s, hs, rfl⟩
  obtain ⟨ps, hps, hverify⟩ := proof_spec keccak256 hs.canon key
  rw [hs.lookup] at hverify
  exact ⟨ps, by rw [hps, trieErr], hverify⟩

end Served

end Boltchain.Store
