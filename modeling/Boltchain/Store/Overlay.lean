import Boltchain.Store.Agree

namespace Boltchain.Store

open Consensus (Bytes)
open Lib

/-- The changes of a block as its bundle gives them: from maps, so each address once, and without empty code. -/
structure Changeset (keccak256 : Bytes → B256) extends StateChangeset where
  nodup : (accounts.map Prod.fst).Nodup
  code_ne : ∀ c ∈ contracts, c.1 ≠ keccakEmpty keccak256

/-- Changes of pending blocks, applied oldest first, on top of the committed state. -/
structure Changes where
  accounts : Address → Option (Option AccountInfo)
  storage : Address × U256 → Option U256
  wiped : Address → Bool
  codes : B256 → Option Bytes
  blockHashes : Nat → Option B256

namespace Changes

def empty : Changes := ⟨fun _ => none, fun _ => none, fun _ => false, fun _ => none, fun _ => none⟩

def wipe (ch : Changes) (a : Address) : Changes :=
  { ch with
    wiped := Function.update ch.wiped a true
    storage := fun k => if k.1 = a then none else ch.storage k }

def pushStorage (ch : Changes) (c : PlainStorageChangeset) : Changes :=
  let ch := if c.wipeStorage then ch.wipe c.address else ch
  { ch with storage := c.storage.foldl (fun m w => Function.update m (c.address, w.1) (some w.2)) ch.storage }

def pushAccount (ch : Changes) (e : Address × Option AccountInfo) : Changes :=
  let ch := if e.2.isNone then ch.wipe e.1 else ch
  { ch with accounts := Function.update ch.accounts e.1 (some e.2) }

def push (ch : Changes) (number : Nat) (hash : B256) (cs : StateChangeset) : Changes :=
  let ch := { ch with codes := putCodes ch.codes cs.contracts }
  let ch := cs.storage.foldl pushStorage ch
  let ch := cs.accounts.foldl pushAccount ch
  { ch with blockHashes := Function.update ch.blockHashes number (some hash) }

end Changes

def codeByHash (keccak256 : Bytes → B256) (codes : B256 → Option Bytes) (h : B256) : Except StoreError Bytes :=
  if h = keccakEmpty keccak256 then .ok [] else (codes h).elim (.error (.corrupt "codes")) .ok

structure Overlay where
  base : State
  changes : Changes

namespace Overlay

def basicRef (o : Overlay) (a : Address) : Option AccountInfo :=
  match o.changes.accounts a with
  | some info => info
  | none => (o.base.accounts.get a).map Account.toAccountInfo

def codeByHashRef (keccak256 : Bytes → B256) (o : Overlay) (h : B256) : Except StoreError Bytes :=
  match o.changes.codes h with
  | some code => .ok code
  | none => codeByHash keccak256 o.base.codes h

def storageRef (o : Overlay) (a : Address) (s : U256) : U256 :=
  match o.changes.storage (a, s) with
  | some v => v
  | none => if o.changes.wiped a then 0 else o.base.slot a s

end Overlay

section Reads

variable {keccak256 : Bytes → B256} {st : State} {ch : Changes} {a : Address}

theorem storageRef_wipe (a : Address) :
    Overlay.storageRef ⟨st, ch.wipe a⟩ = Function.update (Overlay.storageRef ⟨st, ch⟩) a 0 := by
  funext b s
  by_cases hb : b = a
  · simp [Overlay.storageRef, Changes.wipe, hb]
  · simp [Overlay.storageRef, Changes.wipe, hb]

theorem storageRef_write (a : Address) (w : U256 × U256) (m : Address × U256 → Option U256) :
    Overlay.storageRef ⟨st, { ch with storage := Function.update m (a, w.1) (some w.2) }⟩ =
      Function.update (Overlay.storageRef ⟨st, { ch with storage := m }⟩) a
        (Function.update (Overlay.storageRef ⟨st, { ch with storage := m }⟩ a) w.1 w.2) := by
  funext b s
  by_cases hb : b = a
  · subst hb
    by_cases hs : s = w.1
    · simp [Overlay.storageRef, hs]
    · simp [Overlay.storageRef, hs]
  · simp [Overlay.storageRef, hb]

theorem storageRef_writes (a : Address) (ws : List (U256 × U256)) (m : Address × U256 → Option U256) :
    Overlay.storageRef ⟨st, { ch with storage := ws.foldl (fun m w => Function.update m (a, w.1) (some w.2)) m }⟩ =
      Function.update (Overlay.storageRef ⟨st, { ch with storage := m }⟩) a
        (ws.foldl (fun f w => Function.update f w.1 w.2) (Overlay.storageRef ⟨st, { ch with storage := m }⟩ a)) := by
  induction ws generalizing m with
  | nil => exact (Function.update_eq_self a _).symm
  | cons w ws ih =>
    rw [List.foldl_cons, ih, storageRef_write, Function.update_self, Function.update_idem, List.foldl_cons]

theorem storageRef_pushStorage (c : PlainStorageChangeset) :
    Overlay.storageRef ⟨st, ch.pushStorage c⟩ = slotsAfter (Overlay.storageRef ⟨st, ch⟩) c := by
  unfold Changes.pushStorage slotsAfter
  by_cases hw : c.wipeStorage = true
  · simp only [if_pos hw]
    rw [storageRef_writes]
    show Function.update (Overlay.storageRef ⟨st, ch.wipe c.address⟩) _
      (List.foldl _ (Overlay.storageRef ⟨st, ch.wipe c.address⟩ c.address) _) = _
    rw [storageRef_wipe, Function.update_self, Function.update_idem]
  · simp only [if_neg hw]
    exact storageRef_writes _ _ _

theorem storageRef_foldl_pushStorage (cs : List PlainStorageChangeset) :
    Overlay.storageRef ⟨st, cs.foldl Changes.pushStorage ch⟩ = cs.foldl slotsAfter (Overlay.storageRef ⟨st, ch⟩) := by
  induction cs generalizing ch with
  | nil => rfl
  | cons c cs ih => rw [List.foldl_cons, ih, storageRef_pushStorage, List.foldl_cons]

theorem accounts_foldl_pushStorage (cs : List PlainStorageChangeset) :
    (cs.foldl Changes.pushStorage ch).accounts = ch.accounts ∧ (cs.foldl Changes.pushStorage ch).codes = ch.codes := by
  induction cs generalizing ch with
  | nil => exact ⟨rfl, rfl⟩
  | cons c cs ih =>
    have hstep : (ch.pushStorage c).accounts = ch.accounts ∧ (ch.pushStorage c).codes = ch.codes := by
      unfold Changes.pushStorage
      by_cases hw : c.wipeStorage = true
      · simp [hw, Changes.wipe]
      · simp [hw]
    exact ⟨ih.1.trans hstep.1, ih.2.trans hstep.2⟩

/-- Deleted accounts lose their slots. -/
theorem foldl_pushAccount (l : List (Address × Option AccountInfo)) (hl : (l.map Prod.fst).Nodup) :
    (∀ a, (l.foldl Changes.pushAccount ch).accounts a =
      l.foldl (fun o e => if e.1 = a then some e.2 else o) (ch.accounts a)) ∧
    (l.foldl Changes.pushAccount ch).codes = ch.codes ∧
    ∀ a, Overlay.storageRef ⟨st, l.foldl Changes.pushAccount ch⟩ a =
      if (a, none) ∈ l then 0 else Overlay.storageRef ⟨st, ch⟩ a := by
  induction l generalizing ch with
  | nil => exact ⟨fun _ => rfl, rfl, fun _ => by simp⟩
  | cons e l ih =>
    obtain ⟨he, hl⟩ := List.nodup_cons.1 hl
    obtain ⟨haccounts, hcodes, hslots⟩ := ih hl
    have hstep : (ch.pushAccount e).codes = ch.codes ∧
        (ch.pushAccount e).accounts = Function.update ch.accounts e.1 (some e.2) ∧
        ∀ a, Overlay.storageRef ⟨st, ch.pushAccount e⟩ a =
          if e = (a, none) then 0 else Overlay.storageRef ⟨st, ch⟩ a := by
      obtain ⟨b, _ | info⟩ := e
      · refine ⟨rfl, rfl, fun a => ?_⟩
        show Overlay.storageRef ⟨st, ch.wipe b⟩ a = _
        rw [storageRef_wipe]
        by_cases hab : a = b
        · simp [hab]
        · simp [hab, Ne.symm hab]
      · exact ⟨rfl, rfl, fun a => by simp; rfl⟩
    refine ⟨fun a => ?_, hcodes.trans hstep.1, fun a => ?_⟩
    · rw [List.foldl_cons, haccounts, hstep.2.1, List.foldl_cons]
      by_cases ha : e.1 = a
      · simp [← ha]
      · simp [ha, Ne.symm ha]
    · rw [List.foldl_cons, hslots, hstep.2.2]
      by_cases hmem : (a, none) ∈ l
      · simp [hmem]
      · simp [hmem, eq_comm]

theorem entryOf_eq_some {l : List (Address × Option AccountInfo)} (hl : (l.map Prod.fst).Nodup) {o : Option AccountInfo} :
    entryOf l a = some o ↔ (a, o) ∈ l := by
  have hfold : ∀ (l : List (Address × Option AccountInfo)) (i : Option (Option AccountInfo)), (l.map Prod.fst).Nodup →
      (l.foldl (fun o e => if e.1 = a then some e.2 else o) i = some o ↔
        (a, o) ∈ l ∨ a ∉ l.map Prod.fst ∧ i = some o) := by
    intro l
    induction l with
    | nil => simp
    | cons e l ih =>
      intro i hl
      obtain ⟨he, hl⟩ := List.nodup_cons.1 hl
      rw [List.foldl_cons, ih _ hl]
      obtain ⟨b, o'⟩ := e
      by_cases hb : b = a
      · subst hb
        have hnot : (b, o) ∉ l := fun hmem => he (List.mem_map.2 ⟨_, hmem, rfl⟩)
        have he' : b ∉ l.map Prod.fst := he
        simp [hnot, he', eq_comm]
      · simp [hb, Ne.symm hb]
  rw [entryOf, hfold l none hl]
  simp

theorem foldl_entry_or (l : List (Address × Option AccountInfo)) (a : Address) (i : Option (Option AccountInfo)) :
    l.foldl (fun o e => if e.1 = a then some e.2 else o) i = (entryOf l a).or i := by
  unfold entryOf
  induction l using List.reverseRecOn with
  | nil => simp
  | append_singleton l e ih =>
    simp only [List.foldl_append, List.foldl_cons, List.foldl_nil]
    split
    · rfl
    · exact ih

theorem putCodes_eq (codes : B256 → Option Bytes) (contracts : List (B256 × Bytes)) (h : B256) :
    putCodes codes contracts h = (putCodes (fun _ => none) contracts h).or (codes h) ∧
      (putCodes (fun _ => none) contracts h ≠ none → ∃ c ∈ contracts, c.1 = h) := by
  unfold putCodes
  induction contracts using List.reverseRecOn with
  | nil => simp
  | append_singleton l c ih =>
    simp only [List.foldl_append, List.foldl_cons, List.foldl_nil]
    by_cases hc : h = c.1
    · simp [hc]
    · simp only [Function.update_of_ne hc]
      refine ⟨ih.1, fun hne => ?_⟩
      obtain ⟨d, hd, hdh⟩ := ih.2 hne
      exact ⟨d, List.mem_append_left _ hd, hdh⟩

end Reads

section Pending

variable {keccak256 : Bytes → B256} {base st st' : State} {ch : Changes} {root : B256}

/-- Addresses with storage changes have an account entry or an account. -/
def Backed (f : Flat) (cs : StateChangeset) : Prop :=
  ∀ a, touches cs.storage a = true → entryOf cs.accounts a ≠ none ∨ f.info a ≠ none

/-- Pending changes over `base` read as the state `st`. -/
structure ReadsAs (keccak256 : Bytes → B256) (base : State) (ch : Changes) (st : State) : Prop where
  info : ∀ a, Overlay.basicRef ⟨base, ch⟩ a = st.flat.info a
  slot : Overlay.storageRef ⟨base, ch⟩ = st.flat.slot
  code : ∀ h c, ch.codes h = some c → st.codes h = some c ∧ h ≠ keccakEmpty keccak256
  code_base : ∀ h, ch.codes h = none → st.codes h = base.codes h

theorem readsAs_self : ReadsAs keccak256 st .empty st :=
  ⟨fun _ => rfl, rfl, fun _ _ h => (by cases h), fun _ _ => rfl⟩

/-- One block's changes, pushed and applied. -/
theorem ReadsAs.push (h : ReadsAs keccak256 base ch st) (cs : Changeset keccak256)
    (hbacked : Backed st.flat cs.toStateChangeset) (happ : Applied keccak256 st cs.toStateChangeset root st')
    (number : Nat) (hash : B256) : ReadsAs keccak256 base (ch.push number hash cs.toStateChangeset) st' := by
  let ch₀ : Changes := { ch with codes := putCodes ch.codes cs.contracts }
  obtain ⟨haccounts₁, hcodes₁⟩ := accounts_foldl_pushStorage cs.storage
  obtain ⟨haccounts₂, hcodes₂, hslots₂⟩ := foldl_pushAccount
    cs.accounts cs.nodup
  have hcodes : (ch.push number hash cs.toStateChangeset).codes = putCodes ch.codes cs.contracts :=
    hcodes₂.trans hcodes₁
  refine ⟨fun a => ?_, funext fun a => ?_, fun x code hx => ?_, fun x hx => ?_⟩
  · rw [happ.flat]
    have hentry : (ch.push number hash cs.toStateChangeset).accounts a =
        (entryOf cs.accounts a).or (ch.accounts a) := by
      show (cs.accounts.foldl Changes.pushAccount _).accounts a = _
      rw [haccounts₂, haccounts₁]
      exact foldl_entry_or cs.accounts a (ch.accounts a)
    simp only [Overlay.basicRef, Flat.apply, hentry]
    cases ho : entryOf cs.accounts a with
    | some info => rfl
    | none =>
      have hold : Overlay.basicRef ⟨base, ch⟩ a = st.flat.info a := h.info a
      simp only [Option.none_or]
      have hkeep : (if touches cs.storage a = true then
          some ((st.flat.info a).getD (Account.default keccak256).toAccountInfo) else st.flat.info a) = st.flat.info a := by
        split
        case isTrue htouch =>
          obtain ⟨info, hinfo⟩ := Option.ne_none_iff_exists'.1 ((hbacked a htouch).resolve_left (by simp [ho]))
          rw [hinfo]
          rfl
        case isFalse => rfl
      rw [hkeep, ← hold]
      rfl
  · show Overlay.storageRef ⟨base, cs.accounts.foldl Changes.pushAccount _⟩ a = _
    rw [hslots₂, happ.flat, storageRef_foldl_pushStorage]
    have hslot : Overlay.storageRef ⟨base, ch₀⟩ = st.flat.slot := h.slot
    rw [hslot]
    simp only [Flat.apply, entryOf_eq_some cs.nodup]
  · rw [hcodes, (putCodes_eq ch.codes cs.contracts x).1] at hx
    rw [happ.codes, (putCodes_eq st.codes cs.contracts x).1]
    cases hnew : putCodes (fun _ => none) cs.contracts x with
    | some c =>
      rw [hnew] at hx
      obtain ⟨d, hd, rfl⟩ := (putCodes_eq (fun _ => none) cs.contracts x).2 (by simp [hnew])
      exact ⟨hx, cs.code_ne d hd⟩
    | none =>
      rw [hnew] at hx
      exact h.code x code hx
  · rw [hcodes, (putCodes_eq ch.codes cs.contracts x).1] at hx
    rw [happ.codes, (putCodes_eq st.codes cs.contracts x).1]
    obtain ⟨hnew, hold⟩ := Option.or_eq_none_iff.1 hx
    rw [hnew]
    exact h.code_base x hold

def BackedAll (keccak256 : Bytes → B256) : Flat → List (Nat × B256 × Changeset keccak256) → Prop
  | _, [] => True
  | f, b :: blocks =>
    Backed f b.2.2.toStateChangeset ∧ BackedAll keccak256 (f.apply keccak256 b.2.2.toStateChangeset) blocks

def Changes.pushAll (ch : Changes) (blocks : List (Nat × B256 × Changeset keccak256)) : Changes :=
  blocks.foldl (fun ch b => ch.push b.1 b.2.1 b.2.2.toStateChangeset) ch

def applyAll (st : State) (blocks : List (Nat × B256 × Changeset keccak256)) : Except StoreError State :=
  blocks.foldlM (fun st b => (applyChanges keccak256 st b.2.2.toStateChangeset).map Prod.snd) st

theorem ReadsAs.pushAll (hk : CollisionFree keccak256) (h : ReadsAs keccak256 base ch st) (hst : Consistent keccak256 st)
    {blocks : List (Nat × B256 × Changeset keccak256)} (hbacked : BackedAll keccak256 st.flat blocks) :
    ∃ st', applyAll st blocks = .ok st' ∧ ReadsAs keccak256 base (ch.pushAll blocks) st' := by
  induction blocks generalizing st ch with
  | nil => exact ⟨st, rfl, h⟩
  | cons b blocks ih =>
    obtain ⟨root, st₁, hrun₁, happ⟩ := applyChanges_spec hk hst b.2.2.toStateChangeset
    obtain ⟨st', hrun, hreads⟩ := ih (h.push b.2.2 hbacked.1 happ b.1 b.2.1) happ.consistent (happ.flat ▸ hbacked.2)
    refine ⟨st', ?_, hreads⟩
    rw [applyAll, List.foldlM_cons, hrun₁]
    exact hrun

end Pending

/-- Every read through the overlay of pending blocks is the read of the store after their changes were applied in
order. -/
theorem pending_reads_as_committed (keccak256 : Bytes → B256) (hk : CollisionFree keccak256) (base : State)
    (hbase : Consistent keccak256 base) (blocks : List (Nat × B256 × Changeset keccak256))
    (hbacked : BackedAll keccak256 base.flat blocks) :
    ∃ st, applyAll base blocks = .ok st ∧
      (∀ a, Overlay.basicRef ⟨base, Changes.empty.pushAll blocks⟩ a = (st.accounts.get a).map Account.toAccountInfo) ∧
      (∀ a s, Overlay.storageRef ⟨base, Changes.empty.pushAll blocks⟩ a s = st.slot a s) ∧
      ∀ h, Overlay.codeByHashRef keccak256 ⟨base, Changes.empty.pushAll blocks⟩ h = codeByHash keccak256 st.codes h := by
  obtain ⟨st, hrun, hreads⟩ := readsAs_self.pushAll hk hbase hbacked
  refine ⟨st, hrun, hreads.info, fun a s => congrFun (congrFun hreads.slot a) s, fun h => ?_⟩
  unfold Overlay.codeByHashRef
  cases hcode : (Changes.empty.pushAll blocks).codes h with
  | some c =>
    obtain ⟨hst, hne⟩ := hreads.code h c hcode
    simp only [codeByHash, if_neg hne, hst]
    rfl
  | none =>
    simp only [codeByHash]
    rw [hreads.code_base h hcode]

def mockChangeset : Changeset mockKeccak where
  accounts := [(1, some ⟨0, 7, mockKeccak []⟩)]
  storage := [⟨1, false, [(2, 3)]⟩]
  contracts := []
  nodup := by simp
  code_ne := by simp

theorem pending_reads_as_committed_mock :
    BackedAll mockKeccak State.empty.flat [(1, mockKeccak [], mockChangeset)] ∧
    ∃ st, applyAll State.empty [(1, mockKeccak [], mockChangeset)] = .ok st ∧
      (∀ a, Overlay.basicRef ⟨State.empty, Changes.empty.pushAll [(1, mockKeccak [], mockChangeset)]⟩ a =
        (st.accounts.get a).map Account.toAccountInfo) ∧
      (∀ a s, Overlay.storageRef ⟨State.empty, Changes.empty.pushAll [(1, mockKeccak [], mockChangeset)]⟩ a s =
        st.slot a s) ∧
      ∀ h, Overlay.codeByHashRef mockKeccak ⟨State.empty, Changes.empty.pushAll [(1, mockKeccak [], mockChangeset)]⟩ h =
        codeByHash mockKeccak st.codes h := by
  have hbacked : BackedAll mockKeccak State.empty.flat [(1, mockKeccak [], mockChangeset)] := by
    refine ⟨fun a ha => .inl ?_, trivial⟩
    obtain rfl : 1 = a := by simpa [touches, mockChangeset] using ha
    simp [entryOf, mockChangeset]
  exact ⟨hbacked, pending_reads_as_committed mockKeccak collisionFree_mockKeccak State.empty
    (consistent_empty collisionFree_mockKeccak _) _ hbacked⟩

end Boltchain.Store
