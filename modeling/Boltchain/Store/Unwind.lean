import Boltchain.Store.History

namespace Boltchain.Store

open Consensus (Bytes)
open Lib

section Canonical

variable {keccak256 : Bytes → B256} {st st' : State}

/-- Flat state decides the tables and tries. -/
theorem Consistent.eq_of_flat (h : Consistent keccak256 st) (h' : Consistent keccak256 st') (hflat : st'.flat = st.flat)
    (hhist : ∀ n, st'.history n = st.history n) : st' = { st with codes := st'.codes } := by
  have hget : ∀ a s, st'.storage.get (slotKey a s) = st.storage.get (slotKey a s) := by
    intro a s
    have hslot : (st'.storage.get (slotKey a s)).getD 0 = (st.storage.get (slotKey a s)).getD 0 :=
      congrFun (congrFun (congrArg Flat.slot hflat) a) s
    cases hv : st.storage.get (slotKey a s) with
    | none =>
      cases hv' : st'.storage.get (slotKey a s) with
      | none => rfl
      | some v' =>
        rw [hv, hv'] at hslot
        exact absurd hslot (h'.ne_zero a s v' hv')
    | some v =>
      cases hv' : st'.storage.get (slotKey a s) with
      | none =>
        rw [hv, hv'] at hslot
        exact absurd hslot.symm (h.ne_zero a s v hv)
      | some v' =>
        rw [hv, hv'] at hslot
        exact congrArg some hslot
  have hstorage : st'.storage = st.storage := Table.ext fun k => hget (ofLex k).1 (ofLex k).2
  have hmap : ∀ a, slotMap keccak256 st' a = slotMap keccak256 st a := fun a => slotMap_congr (hget a)
  have haccounts : st'.accounts = st.accounts := by
    apply Table.ext
    intro a
    have hinfo : (st'.accounts.get a).map Account.toAccountInfo = (st.accounts.get a).map Account.toAccountInfo :=
      congrFun (congrArg Flat.info hflat) a
    cases hacc : st.accounts.get a with
    | none => simpa [hacc] using hinfo
    | some acc =>
      obtain ⟨acc', hacc', heq⟩ : ∃ acc', st'.accounts.get a = some acc' ∧ acc'.toAccountInfo = acc.toAccountInfo := by
        simpa [hacc] using hinfo
      have hroot : acc'.storageRoot = acc.storageRoot := by
        refine (h'.storage_root a acc' hacc').unique ?_
        rw [hmap]
        exact h.storage_root a acc hacc
      rw [hacc']
      cases acc
      cases acc'
      cases heq
      cases hroot
      rfl
  have haccMap : accountMap keccak256 st' = accountMap keccak256 st := by
    unfold accountMap
    rw [haccounts]
  have htrieAcc : st'.trieAcc = st.trieAcc := (haccMap ▸ h'.accounts).unique h.accounts
  have htrieSto : st'.trieSto = st.trieSto := by
    funext x
    by_cases hx : x ∈ Set.range (hashedAddress keccak256)
    · obtain ⟨a, rfl⟩ := hx
      exact (hmap a ▸ h'.stores a).unique (h.stores a)
    · rw [h'.rest x hx, h.rest x hx]
  have haccHist : st'.accHist = st.accHist :=
    Table.ext fun k => congrFun (congrArg History.account (hhist (ofLex k).2)) (ofLex k).1
  have hstoHist : st'.stoHist = st.stoHist :=
    Table.ext fun k =>
      congrFun (congrFun (congrArg History.slot (hhist (ofLex k).2)) (ofLex (ofLex k).1).1) (ofLex (ofLex k).1).2
  have hkeys : st'.histKeys = st.histKeys :=
    Table.ext fun k => congrFun (congrArg History.key (hhist (ofLex k).1)) (ofLex k).2
  cases st
  cases st'
  simp only at haccounts hstorage htrieAcc htrieSto haccHist hstoHist hkeys
  subst haccounts hstorage htrieAcc htrieSto haccHist hstoHist hkeys
  rfl

theorem Consistent.slot_of_info (h : Consistent keccak256 st) (a : Address) (ha : st.flat.info a = none) :
    st.flat.slot a = 0 := by
  funext s
  have hnone : st.accounts.get a = none := Option.map_eq_none_iff.1 ha
  have hslot : st.storage.get (slotKey a s) = none := not_not.1 fun hne => h.slot_account a s hne hnone
  show (st.storage.get (slotKey a s)).getD 0 = 0
  rw [hslot]
  rfl

end Canonical

section BlockTables

/-- Nothing is stored of a block, and it is the next one. -/
structure Blocks.Awaits (c : Hashes) (b : Blocks) (block : StoredBlock) : Prop where
  head : ∃ p, b.head = some p ∧ block.header.number = p + 1
  base : b.base ≤ block.header.number
  headers : b.headers block.header.number = none
  hashNum : b.hashNum (c.hashSlow block.header) = none
  bodies : b.bodies block.header.number = none
  senders : b.senders block.header.number = none
  receipts : b.receipts block.header.number = none
  td : b.td block.header.number = none
  envelopes : b.envelopes block.header.number = none
  addrTx : ∀ a i, b.addrTx (a, block.header.number, i) = none

def Blocks.New (b : Blocks) (block : StoredBlock) : Prop := ∀ tx ∈ block.transactions, b.txIndex tx.hash = none

variable {c : Hashes} {b : Blocks} {block : StoredBlock} {receipts : List Receipt}

variable {α : Type}

theorem update_update_none {β : Type} [DecidableEq α] {f : α → Option β} {a : α} (h : f a = none) (o : Option β) :
    Function.update (Function.update f a o) a none = f := by
  rw [Function.update_idem, ← h, Function.update_eq_self]

variable {number : Nat} {t : B256 → Option (Nat × Nat)}

theorem foldl_removeTx {t₀ : B256 → Option (Nat × Nat)} {txs : List Transaction}
    (hnew : ∀ tx ∈ txs, t₀ tx.hash = none)
    (ht : ∀ h, t h = t₀ h ∨ (t h).map Prod.fst = some number ∧ ∃ tx ∈ txs, tx.hash = h) :
    txs.foldl (removeTx number) t = t₀ := by
  induction txs generalizing t with
  | nil =>
    funext h
    exact (ht h).resolve_right (by simp)
  | cons tx txs ih =>
    refine ih (fun x hx => hnew x (List.mem_cons_of_mem tx hx)) fun h => ?_
    have hgone : removeTx number t tx tx.hash = t₀ tx.hash := by
      unfold removeTx
      split
      · rw [Function.update_self, hnew tx List.mem_cons_self]
      · rename_i hne
        exact (ht tx.hash).resolve_right fun hin => hne hin.1
    by_cases hh : h = tx.hash
    · exact .inl (hh ▸ hgone)
    · have hsame : removeTx number t tx h = t h := by
        unfold removeTx
        split
        · rw [Function.update_of_ne hh]
        · rfl
      rw [hsame]
      rcases ht h with heq | ⟨hnum, x, hx, hxh⟩
      · exact .inl heq
      · rcases List.mem_cons.1 hx with rfl | hx
        · exact absurd hxh.symm hh
        · exact .inr ⟨hnum, x, hx, hxh⟩

theorem foldl_indexTx (l : List (Transaction × Nat)) (h : B256) :
    l.foldl (fun (t : B256 → Option (Nat × Nat)) e => Function.update t e.1.hash (some (number, e.2))) t h = t h ∨
      ((l.foldl (fun (t : B256 → Option (Nat × Nat)) e => Function.update t e.1.hash (some (number, e.2))) t h).map Prod.fst = some number ∧
        ∃ e ∈ l, e.1.hash = h) := by
  induction l using List.reverseRecOn with
  | nil => exact .inl rfl
  | append_singleton l e ih =>
    rw [List.foldl_append, List.foldl_cons, List.foldl_nil]
    by_cases hh : h = e.1.hash
    · subst hh
      rw [Function.update_self]
      exact .inr ⟨rfl, e, by simp, rfl⟩
    · rw [Function.update_of_ne hh]
      refine ih.imp_right fun ⟨hnum, x, hx, hxh⟩ => ⟨hnum, x, List.mem_append_left _ hx, hxh⟩

theorem foldl_unindex [DecidableEq α] {t : α → Option UInt8} {l : List (α × UInt8)}
    (hnone : ∀ e ∈ l, t e.1 = none) :
    l.foldl (fun (t : α → Option UInt8) e => Function.update t e.1 none)
      (l.foldl (fun (t : α → Option UInt8) e => Function.update t e.1 (some ((t e.1).getD 0 ||| e.2))) t) = t := by
  have hwritten : ∀ k, (∀ e ∈ l, e.1 ≠ k) →
      l.foldl (fun (t : α → Option UInt8) e => Function.update t e.1 (some ((t e.1).getD 0 ||| e.2))) t k = t k := by
    clear hnone
    intro k hk
    induction l generalizing t with
    | nil => rfl
    | cons e l ih =>
      rw [List.foldl_cons, ih fun x hx => hk x (List.mem_cons_of_mem e hx),
        Function.update_of_ne (hk e List.mem_cons_self).symm]
  have hwrite : ∀ t' : α → Option UInt8, l.foldl (fun (t : α → Option UInt8) e => Function.update t e.1 none) t' =
      Journal.write t' (l.map fun e => (e.1, none)) := by
    intro t'
    rw [Journal.write, List.foldl_map]
  funext k
  rw [hwrite]
  by_cases hk : ∃ e ∈ l, e.1 = k
  · obtain ⟨e, he, rfl⟩ := hk
    refine Journal.write_of_mem ⟨(e.1, none), List.mem_map.2 ⟨e, he, rfl⟩, rfl⟩ fun x hx => ?_
    obtain ⟨y, hy, rfl⟩ := List.mem_map.1 hx
    exact (hnone y hy).symm
  · have hne : ∀ e ∈ l, e.1 ≠ k := fun e he hek => hk ⟨e, he, hek⟩
    rw [Journal.write_of_notMem, hwritten k hne]
    intro x hx
    obtain ⟨y, hy, rfl⟩ := List.mem_map.1 hx
    exact hne y hy

theorem block_putBlock : (putBlock c b block receipts).block c block.header.number = some block := by
  unfold putBlock
  split <;> simp [Blocks.block, indexBlock]

theorem removeHeadBlock_of_block (h : b.block c number = some block) :
    ∃ blocks, removeHeadBlock c b number = .ok (block, blocks) := by
  unfold removeHeadBlock
  rw [h]
  exact ⟨_, rfl⟩

theorem removeHeadBlock_txIndex (c : Hashes) (b : Blocks) (block : StoredBlock) (receipts : List Receipt) :
    ∃ blocks, removeHeadBlock c (putBlock c b block receipts) block.header.number = .ok (block, blocks) ∧
      blocks.txIndex = block.transactions.foldl (removeTx block.header.number) (putBlock c b block receipts).txIndex := by
  unfold removeHeadBlock
  rw [block_putBlock]
  refine ⟨_, rfl, ?_⟩
  simp only
  split <;> rfl

/-- Removing the block just put leaves the tables as they were. -/
theorem removeHeadBlock_putBlock (h : b.Awaits c block) (hnew : b.New block) :
    removeHeadBlock c (putBlock c b block receipts) block.header.number = .ok (block, b) := by
  obtain ⟨p, hp, hnumber⟩ := h.head
  have hindexed : ∀ e ∈ indexed c.create block receipts, b.addrTx e.1 = none := by
    intro e he
    obtain ⟨i, -, he⟩ := List.mem_flatMap.1 he
    obtain ⟨x, -, rfl⟩ := List.mem_map.1 he
    exact h.addrTx x.1 i
  have htx := foldl_removeTx hnew (t := block.transactions.zipIdx.foldl
    (fun (t : B256 → Option (Nat × Nat)) e => Function.update t e.1.hash (some (block.header.number, e.2))) b.txIndex) fun x => by
      refine (foldl_indexTx _ x).imp_right fun ⟨hnum, e, he, hex⟩ => ⟨hnum, e.1, ?_, hex⟩
      exact List.fst_mem_of_mem_zipIdx he
  have hindex := foldl_unindex hindexed
  have hhead : (if block.header.number = 0 then none else some (block.header.number - 1)) = b.head := by
    rw [hp, hnumber, if_neg (by omega), Nat.add_sub_cancel]
  have hreceipts : ((putBlock c b block receipts).receipts block.header.number).getD [] = receipts := by
    unfold putBlock
    split <;> simp [indexBlock]
  unfold removeHeadBlock
  rw [block_putBlock]
  simp only [hreceipts]
  refine congrArg (fun x => Except.ok (block, x)) ?_
  cases hindexing : b.addressIndexFrom.isSome with
  | true =>
    simp only [putBlock, hindexing, if_true, indexBlock, unindexBlock]
    apply Blocks.ext
    · exact hhead
    · rfl
    · rfl
    · exact update_update_none h.headers _
    · exact update_update_none h.hashNum _
    · exact update_update_none h.bodies _
    · exact update_update_none h.senders _
    · exact update_update_none h.receipts _
    · exact htx
    · exact update_update_none h.td _
    · exact (Function.update_eq_self_iff ..).2 h.envelopes.symm
    · exact hindex
  | false =>
    simp only [putBlock, hindexing, Bool.false_eq_true, if_false]
    apply Blocks.ext
    · exact hhead
    · rfl
    · rfl
    · exact update_update_none h.headers _
    · exact update_update_none h.hashNum _
    · exact update_update_none h.bodies _
    · exact update_update_none h.senders _
    · exact update_update_none h.receipts _
    · exact htx
    · exact update_update_none h.td _
    · exact (Function.update_eq_self_iff ..).2 h.envelopes.symm
    · rfl

end BlockTables

section Commits

structure Executed where
  bundle : BundleState
  block : StoredBlock
  receipts : List Receipt

variable (c : Hashes)

def commitBlock (db : Db) (x : Executed) : Except StoreError Db := do
  let (_, state) ← applyBundle c.keccak256 db.state x.block.header.number x.bundle
  .ok ⟨state, putBlock c db.blocks x.block x.receipts⟩

/-- The block is the next one, nothing of it is stored, and its bundle carries exactly its reverts. -/
structure Fits (db : Db) (x : Executed) : Prop where
  awaits : db.blocks.Awaits c x.block
  history : db.state.history x.block.header.number = History.empty
  exact : ExactReverts c.keccak256 db.state.flat x.bundle

/-- Blocks that can be committed one after another, none with a transaction that is indexed already. -/
def FitAll (db : Db) : List Executed → Prop
  | [] => True
  | x :: xs => Fits c db x ∧ db.blocks.New x.block ∧ ∀ db', commitBlock c db x = .ok db' → FitAll db' xs

/-- Undoes a number of head blocks. Gives the block removed last and the root after it. -/
def unwindBlocks : Nat → Db → Except StoreError (Option (StoredBlock × B256) × Db)
  | 0, db => .ok (none, db)
  | n + 1, db => do
    let (_, db) ← unwindBlocks n db
    let (removed, db) ← unwindHead c db
    .ok (some removed, db)

variable {c} {db db₁ : Db} {x : Executed}

structure Committed (c : Hashes) (db : Db) (x : Executed) (db₁ : Db) : Prop where
  consistent : Consistent c.keccak256 db₁.state
  flat : db₁.state.flat = db.state.flat.apply c.keccak256 x.bundle.changes
  records : (db₁.state.history x.block.header.number).Records db.state.flat db₁.state.flat
  other : ∀ m, m ≠ x.block.header.number → db₁.state.history m = db.state.history m
  blocks : db₁.blocks = putBlock c db.blocks x.block x.receipts

theorem commitBlock_spec (hk : CollisionFree c.keccak256) (h : Consistent c.keccak256 db.state)
    (hhist : db.state.history x.block.header.number = History.empty)
    (hexact : ExactReverts c.keccak256 db.state.flat x.bundle) :
    ∃ db₁, commitBlock c db x = .ok db₁ ∧ Committed c db x db₁ := by
  have hlive := writeHistory_live db.state x.block.header.number x.bundle.reverts
  obtain ⟨root, st, happ, hspec⟩ := applyChanges_spec hk (hlive.consistent h) x.bundle.changes
  have hflat : st.flat = db.state.flat.apply c.keccak256 x.bundle.changes := by rw [hspec.flat, hlive.flat]
  have hhistory : ∀ m, st.history m = (writeHistory db.state x.block.header.number x.bundle.reverts).history m := by
    intro m
    unfold State.history
    rw [hspec.accHist, hspec.stoHist, hspec.histKeys]
  refine ⟨⟨st, putBlock c db.blocks x.block x.receipts⟩, ?_, hspec.consistent, hflat, ?_, fun m hm => ?_, rfl⟩
  · simp only [commitBlock, applyBundle, happ, bind, Except.bind]
  · show (st.history _).Records db.state.flat st.flat
    rw [hhistory, hflat]
    exact hexact.records hhist
  · exact (hhistory m).trans (writeHistory_of_ne _ hm)

theorem unwindState_commit (hk : CollisionFree c.keccak256) (h : Consistent c.keccak256 db.state) (hx : Fits c db x)
    (h₁ : Committed c db x db₁) (codes : B256 → Option Bytes) :
    ∃ root codes', unwindState c.keccak256 true { db₁.state with codes } x.block.header.number =
        .ok (root, { db.state with codes := codes' }) ∧ root = fullStateRoot c.keccak256 db.state := by
  have hstart : Consistent c.keccak256 { db₁.state with codes } := h₁.consistent.congr rfl rfl rfl rfl
  obtain ⟨root, st, hrun, hcons, hroot, hflat, hempty, hother⟩ :=
    unwindState_spec hk hstart h₁.records fun a ha => h.slot_of_info a ha
  have hhistory : ∀ m, st.history m = db.state.history m := by
    intro m
    by_cases hm : m = x.block.header.number
    · rw [hm, hempty, hx.history]
    · rw [hother m hm]
      exact h₁.other m hm
  have hst := h.eq_of_flat hcons hflat hhistory
  refine ⟨root, st.codes, by rw [hrun, ← hst], ?_⟩
  rw [hcons.root_eq hk hroot, hst]
  rfl

theorem head_putBlock : (putBlock c db.blocks x.block x.receipts).head = some x.block.header.number := by
  unfold putBlock
  split <;> rfl

theorem base_putBlock : (putBlock c db.blocks x.block x.receipts).base = db.blocks.base := by
  unfold putBlock
  split <;> rfl

theorem historyCovers_putBlock (hx : db.blocks.Awaits c x.block) :
    (putBlock c db.blocks x.block x.receipts).historyCovers x.block.header.number = true := by
  simp [Blocks.historyCovers, head_putBlock, base_putBlock, hx.base]

variable {blocks : Blocks} {removed : StoredBlock}

theorem unwindHead_eq {p : Nat} {root : B256} {st : State}
    (hhead : db.blocks.head = some (p + 1))
    (hstate : unwindState c.keccak256 (db.blocks.historyCovers (p + 1)) db.state (p + 1) = .ok (root, st))
    (hblocks : removeHeadBlock c db.blocks (p + 1) = .ok (removed, blocks)) :
    unwindHead c db = .ok ((removed, root), ⟨st, blocks⟩) := by
  unfold unwindHead
  rw [hhead]
  simp only [hstate, hblocks, bind, Except.bind]

theorem unwindHead_ok {removed : StoredBlock × B256} (h : unwindHead c db = .ok (removed, db₁)) :
    ∃ p, db.blocks.head = some (p + 1) ∧
      unwindState c.keccak256 (db.blocks.historyCovers (p + 1)) db.state (p + 1) = .ok (removed.2, db₁.state) ∧
      db₁.blocks.head = some p ∧ db₁.blocks.base = db.blocks.base := by
  unfold unwindHead at h
  split at h
  · cases h
  · cases h
  · rename_i p hhead
    cases hstate : unwindState c.keccak256 (db.blocks.historyCovers (p + 1)) db.state (p + 1) with
    | error e =>
      rw [hstate] at h
      cases h
    | ok r =>
      simp only [hstate, bind, Except.bind, removeHeadBlock] at h
      cases hblock : db.blocks.block c (p + 1) with
      | none =>
        simp only [hblock] at h
        cases h
      | some block =>
        simp only [hblock] at h
        cases h
        refine ⟨p, hhead, hstate, rfl, ?_⟩
        simp only
        split <;> rfl

theorem unwindHead_commit (hk : CollisionFree c.keccak256) (h : Consistent c.keccak256 db.state) (hx : Fits c db x)
    (h₁ : Committed c db x db₁)
    (hblocks : removeHeadBlock c (putBlock c db.blocks x.block x.receipts) x.block.header.number = .ok (removed, blocks))
    (codes : B256 → Option Bytes) :
    ∃ codes', unwindHead c ⟨{ db₁.state with codes }, db₁.blocks⟩ =
      .ok ((removed, fullStateRoot c.keccak256 db.state), ⟨{ db.state with codes := codes' }, blocks⟩) := by
  obtain ⟨root, codes', hrun, rfl⟩ := unwindState_commit hk h hx h₁ codes
  obtain ⟨p, -, hp⟩ := hx.awaits.head
  have hhead : db₁.blocks.head = some (p + 1) := by
    rw [h₁.blocks, ← hp]
    exact head_putBlock
  refine ⟨codes', unwindHead_eq hhead ?_ ?_⟩
  · rw [h₁.blocks, ← hp, historyCovers_putBlock hx.awaits]
    exact hrun
  · rw [h₁.blocks, ← hp]
    exact hblocks

end Commits

section Mock

def mockDb : Db := ⟨State.empty, { Blocks.empty with head := some 0 }⟩

def mockTx : Transaction := ⟨mockKeccak [7], 0, none⟩

def mockBlock (number : Nat) : StoredBlock := ⟨⟨number, 1, mockKeccak [], []⟩, [mockTx], [3]⟩

def mockFirst : Executed where
  bundle := ⟨⟨[(1, some ⟨0, 5, mockKeccak []⟩)], [], []⟩, ⟨[[(1, none)]], []⟩⟩
  block := mockBlock 1
  receipts := [⟨[]⟩]

def mockSecond : Executed := ⟨⟨⟨[], [], []⟩, ⟨[], []⟩⟩, mockBlock 2, [⟨[]⟩]⟩

theorem exactReverts_one {keccak256 : Bytes → B256} {f : Flat} (a : Address) (info : AccountInfo) :
    ExactReverts keccak256 f ⟨⟨[(a, some info)], [], []⟩, ⟨[[(a, f.info a)]], []⟩⟩ := by
  have hentry : ∀ b, entryOf [(a, some info)] b = if a = b then some (some info) else none := fun b => rfl
  refine ⟨fun b o hbo => ?_, by simp, fun b hb => ?_, fun b s hs => ?_, by simp [PlainStateReverts.Has]⟩
  · obtain ⟨rfl, rfl⟩ : b = a ∧ o = f.info a := by simpa using hbo
    rfl
  · by_cases hab : a = b
    · exact ⟨f.info a, by simp [hab]⟩
    · simp only [Flat.apply, hentry, if_neg hab] at hb
      exact absurd rfl hb
  · have hne : entryOf [(a, some info)] b ≠ some none := by
      rw [hentry]
      split <;> simp
    simp only [Flat.apply, if_neg hne] at hs
    exact absurd rfl hs

theorem fits_mockFirst : Fits mockHashes mockDb mockFirst where
  awaits := ⟨⟨0, rfl, rfl⟩, Nat.zero_le _, rfl, rfl, rfl, rfl, rfl, rfl, rfl, fun _ _ => rfl⟩
  history := rfl
  exact := exactReverts_one 1 _

end Mock

end Boltchain.Store
