import Boltchain.Store.Unwind

namespace Boltchain.Store

open Consensus (Bytes)
open Lib

/-- Account of the state as of block `number`; fails if history no longer covers it. -/
def basicRefAt (db : Db) (number : Nat) (addr : Address) : Except StoreError (Option AccountInfo) :=
  if db.blocks.historyCovers number then .ok (accountAt db.state addr number) else .error (.corrupt "history pruned")

def storageRefAt (db : Db) (number : Nat) (addr : Address) (slot : U256) : Except StoreError U256 :=
  if db.blocks.historyCovers number then .ok (storageAt db.state addr slot number) else .error (.corrupt "history pruned")

/-- A store with what it has gone through: the flat state after each block of its chain and the highest head. -/
structure Trace where
  db : Db
  after : Nat → Flat
  highest : Nat

/-- The head is among the latest blocks that history is kept for. -/
def Trace.Recent (t : Trace) : Prop := t.highest < t.db.blocks.head.getD 0 + HISTORY_BLOCKS

/-- A store as it starts, at genesis or at a checkpoint. -/
structure Trace.Start (c : Hashes) (t : Trace) : Prop where
  consistent : Consistent c.keccak256 t.db.state
  head : t.db.blocks.head = some t.highest
  base : t.db.blocks.base = t.highest
  history : ∀ n, t.db.state.history n = History.empty
  after : t.after t.highest = t.db.state.flat

/-- Runs of commits, each followed by pruning, and of unwinds in states that meet a condition. -/
inductive Trace.Run (c : Hashes) (ok : Trace → Prop) (start : Trace) : Trace → Prop
  | start : Run c ok start start
  | commit {t : Trace} {p : Nat} {x : Executed} {db : Db} (run : Run c ok start t)
      (hhead : t.db.blocks.head = some p) (hnumber : x.block.header.number = p + 1)
      (hexact : ExactReverts c.keccak256 t.db.state.flat x.bundle) (hrun : commitBlock c t.db x = .ok db) :
      Run c ok start ⟨{ db with state := pruneHistory db.state (p + 1) },
        Function.update t.after (p + 1) db.state.flat, max t.highest (p + 1)⟩
  | unwind {t : Trace} {removed : StoredBlock × B256} {db : Db} (run : Run c ok start t) (hok : ok t)
      (hrun : unwindHead c t.db = .ok (removed, db)) : Run c ok start ⟨db, t.after, t.highest⟩

section Prune

variable {st : State} {m head : Nat}

theorem pruneHistory_of_lt (hm : head < m + HISTORY_BLOCKS) : (pruneHistory st head).history m = st.history m := by
  unfold pruneHistory
  split
  · rfl
  · rename_i hle
    have hkeys : ∀ k ∈ (st.histKeys.entries.filter fun e => (ofLex e.1).1 ≤ head - HISTORY_BLOCKS).map Prod.fst,
        m ≠ (ofLex k).1 := by
      intro k hk
      obtain ⟨e, he, rfl⟩ := List.mem_map.1 hk
      have := of_decide_eq_true (List.mem_filter.1 he).2
      omega
    generalize (st.histKeys.entries.filter fun e => (ofLex e.1).1 ≤ head - HISTORY_BLOCKS).map Prod.fst = keys at hkeys
    clear hle
    induction keys generalizing st with
    | nil => rfl
    | cons k keys ih =>
      rw [List.foldl_cons, ih fun j hj => hkeys j (List.mem_cons_of_mem k hj)]
      exact history_pruneKey_of_ne (ofLex k).2 (hkeys k List.mem_cons_self)

variable {f : Flat}

theorem foldl_pruneKey (h : (st.history m).Collects f) (keys : List (Nat ×ₗ HistKey)) :
    ((keys.foldl pruneKey st).history m).Collects f ∧
      ∀ k, ((keys.foldl pruneKey st).history m).Has k ↔ (st.history m).Has k ∧ toLex (m, k) ∉ keys := by
  induction keys generalizing st with
  | nil => exact ⟨h, by simp⟩
  | cons j keys ih =>
    obtain ⟨n, j, rfl⟩ : ∃ n j', j = toLex (n, j') := ⟨(ofLex j).1, (ofLex j).2, rfl⟩
    rw [List.foldl_cons]
    by_cases hm : m = n
    · subst hm
      have hj : (pruneKey st (toLex (m, j))).history m = (st.history m).remove j := history_pruneKey j
      have hnext : ((pruneKey st (toLex (m, j))).history m).Collects f := by rw [hj]; exact h.remove j
      obtain ⟨hc, hhas⟩ := ih hnext
      refine ⟨hc, fun k => ?_⟩
      rw [hhas, hj, History.has_remove, and_assoc, List.mem_cons, not_or]
      simp
    · have hj : (pruneKey st (toLex (n, j))).history m = st.history m := history_pruneKey_of_ne j hm
      have hnext : ((pruneKey st (toLex (n, j))).history m).Collects f := by rw [hj]; exact h
      obtain ⟨hc, hhas⟩ := ih hnext
      refine ⟨hc, fun k => ?_⟩
      rw [hhas, hj, List.mem_cons, not_or]
      simp [hm]

theorem pruneHistory_collects (h : (st.history m).Collects f) :
    ((pruneHistory st head).history m).Collects f := by
  unfold pruneHistory
  split
  · exact h
  · exact (foldl_pruneKey h _).1

theorem pruneHistory_of_le (h : (st.history m).Collects f) (hm : m + HISTORY_BLOCKS ≤ head) :
    (pruneHistory st head).history m = History.empty := by
  unfold pruneHistory
  rw [if_neg (by omega)]
  obtain ⟨hc, hhas⟩ := foldl_pruneKey h
    ((st.histKeys.entries.filter fun e => (ofLex e.1).1 ≤ head - HISTORY_BLOCKS).map Prod.fst)
  refine hc.eq_empty fun k hk => ?_
  obtain ⟨hold, hnot⟩ := (hhas k).1 hk
  obtain ⟨v, hv⟩ := Option.ne_none_iff_exists'.1 ((h.key k).2 hold)
  refine hnot (List.mem_map.2 ⟨(toLex (m, k), v), List.mem_filter.2 ⟨Table.get_eq_some.1 hv, ?_⟩, rfl⟩)
  exact decide_eq_true (by omega : m ≤ head - HISTORY_BLOCKS)

end Prune

section Runs

variable {c : Hashes} {ok : Trace → Prop} {start t : Trace}

/-- What holds of a store along a run: the history of the latest blocks takes each state back to the one before. -/
structure Trace.Kept (c : Hashes) (t : Trace) (head : Nat) : Prop where
  consistent : Consistent c.keccak256 t.db.state
  head_eq : t.db.blocks.head = some head
  le_highest : head ≤ t.highest
  recent : t.highest < head + 1 + HISTORY_BLOCKS
  flat : t.db.blocks.base ≤ head → t.after head = t.db.state.flat
  above : ∀ m, head < m → t.db.state.history m = History.empty
  records : ∀ m, t.db.blocks.base < m → m ≤ head → t.highest < m + HISTORY_BLOCKS →
    (t.db.state.history m).Records (t.after (m - 1)) (t.after m)
  keyed : ∀ m, ∃ f, (t.db.state.history m).Collects f
  pruned : ∀ m, m + HISTORY_BLOCKS ≤ t.highest → t.db.state.history m = History.empty
  slots : ∀ n, t.db.blocks.base ≤ n → n ≤ head → ∀ a, (t.after n).info a = none → (t.after n).slot a = 0

theorem Trace.Start.kept (h : start.Start c) : start.Kept c start.highest where
  consistent := h.consistent
  head_eq := h.head
  le_highest := le_rfl
  recent := by omega
  flat _ := h.after
  above m _ := h.history m
  records m hbase hm _ := by
    rw [h.base] at hbase
    omega
  keyed m := ⟨start.db.state.flat, by rw [h.history m]; exact History.collects_empty _⟩
  pruned m _ := h.history m
  slots n hbase hn a ha := by
    obtain rfl : n = start.highest := by
      rw [h.base] at hbase
      omega
    rw [h.after] at ha ⊢
    exact h.consistent.slot_of_info a ha

variable {db : Db}

theorem Trace.Kept.commit (hk : CollisionFree c.keccak256) {p : Nat} {x : Executed} (h : t.Kept c p)
    (hnumber : x.block.header.number = p + 1) (hexact : ExactReverts c.keccak256 t.db.state.flat x.bundle)
    (hrun : commitBlock c t.db x = .ok db) :
    Trace.Kept c ⟨{ db with state := pruneHistory db.state (p + 1) }, Function.update t.after (p + 1) db.state.flat,
      max t.highest (p + 1)⟩ (p + 1) := by
  obtain ⟨db', hrun', hdb⟩ := commitBlock_spec hk h.consistent (h.above x.block.header.number (by omega)) hexact
  obtain rfl : db' = db := by
    rw [hrun] at hrun'
    cases hrun'
    rfl
  have hlive := pruneHistory_live db'.state (p + 1)
  have hbase : db'.blocks.base = t.db.blocks.base := by rw [hdb.blocks, base_putBlock]
  have hrecords := hdb.records
  have hother := hdb.other
  rw [hnumber] at hrecords hother
  have hcollects : ∀ m, ∃ f, (db'.state.history m).Collects f := by
    intro m
    by_cases hm : m = p + 1
    · exact ⟨_, hm ▸ hrecords.toCollects⟩
    · rw [hother m hm]
      exact h.keyed m
  have hle := h.le_highest
  have hrecent := h.recent
  have hlast : max t.highest (p + 1) < p + 1 + 1 + HISTORY_BLOCKS := by omega
  refine ⟨hlive.consistent hdb.consistent, ?_, le_max_right _ _, hlast, fun _ => ?_, fun m hm => ?_,
    fun m hm hmh hlow => ?_, fun m => ?_, fun m hm => ?_, fun n hn hnh a ha => ?_⟩
  · show db'.blocks.head = _
    rw [hdb.blocks, head_putBlock, hnumber]
  · exact Function.update_self (f := t.after) .. |>.trans hlive.flat.symm
  · show (pruneHistory db'.state (p + 1)).history m = _
    rw [pruneHistory_of_lt (by omega), hother m (by omega), h.above m (by omega)]
  · have hbase' : t.db.blocks.base < m := hbase ▸ hm
    have hlow' : max t.highest (p + 1) < m + HISTORY_BLOCKS := hlow
    simp only
    rw [pruneHistory_of_lt (by omega)]
    by_cases hmp : m = p + 1
    · subst hmp
      rw [Function.update_self, Nat.add_sub_cancel, Function.update_of_ne (by omega), h.flat (by omega)]
      exact hrecords
    · rw [hother m hmp, Function.update_of_ne hmp, Function.update_of_ne (by omega)]
      exact h.records m hbase' (by omega) (by omega)
  · obtain ⟨f, hf⟩ := hcollects m
    exact ⟨f, pruneHistory_collects hf⟩
  · show (pruneHistory db'.state (p + 1)).history m = _
    have hm' : m + HISTORY_BLOCKS ≤ max t.highest (p + 1) := hm
    by_cases hmp : m + HISTORY_BLOCKS ≤ p + 1
    · obtain ⟨f, hf⟩ := hcollects m
      exact pruneHistory_of_le hf hmp
    · rw [pruneHistory_of_lt (by omega), hother m (by omega), h.pruned m (by omega)]
  · have hn' : t.db.blocks.base ≤ n := hbase ▸ hn
    by_cases hnp : n = p + 1
    · subst hnp
      simp only [Function.update_self] at ha ⊢
      exact hdb.consistent.slot_of_info a ha
    · simp only [Function.update_of_ne hnp] at ha ⊢
      exact h.slots n hn' (by omega) a ha

variable {head : Nat}

theorem Trace.Kept.unwind (hk : CollisionFree c.keccak256) {removed : StoredBlock × B256}
    (h : t.Kept c head) (hok : t.Recent) (hrun : unwindHead c t.db = .ok (removed, db)) :
    ∃ p, head = p + 1 ∧ Trace.Kept c ⟨db, t.after, t.highest⟩ p := by
  obtain ⟨p, hhead, hstate, hhead', hbase⟩ := unwindHead_ok hrun
  obtain rfl : head = p + 1 := by
    rw [h.head_eq] at hhead
    exact Option.some.inj hhead
  have hrecent : t.highest < p + 1 + HISTORY_BLOCKS := by
    unfold Trace.Recent at hok
    rwa [h.head_eq] at hok
  obtain ⟨f, hf⟩ := h.keyed (p + 1)
  obtain ⟨hempty, hother⟩ := unwindState_history hk h.consistent hf hstate
  have hflat : t.db.blocks.base ≤ p → t.after p = db.state.flat := by
    intro hle
    have hrec := h.records (p + 1) (by omega) le_rfl hrecent
    rw [Nat.add_sub_cancel, h.flat (by omega)] at hrec
    obtain ⟨root, st, hrun', -, -, hflat, -⟩ := unwindState_spec hk h.consistent hrec (h.slots p hle (by omega))
    have hcovers : t.db.blocks.historyCovers (p + 1) = true := by
      simp only [Blocks.historyCovers, h.head_eq, Option.getD_some, decide_eq_true_eq]
      omega
    rw [hcovers, hrun'] at hstate
    cases hstate
    exact hflat.symm
  have hle := h.le_highest
  refine ⟨p, rfl, (unwindState_agrees hk h.consistent hstate).1, hhead', Nat.le_of_succ_le hle, hrecent, ?_, fun m hm => ?_,
    fun m hm hmp hlow => ?_, fun m => ?_, fun m hm => ?_, fun n hn hnp => ?_⟩
  · show db.blocks.base ≤ p → _
    rwa [hbase]
  · by_cases hmp : m = p + 1
    · rw [hmp]
      exact hempty
    · exact (hother m hmp).trans (h.above m (by omega))
  · show (db.state.history m).Records _ _
    rw [hother m (by omega)]
    exact h.records m (hbase ▸ hm) (by omega) hlow
  · show ∃ f, (db.state.history m).Collects f
    by_cases hmp : m = p + 1
    · rw [hmp, hempty]
      exact ⟨f, History.collects_empty f⟩
    · rw [hother m hmp]
      exact h.keyed m
  · have hm' : m + HISTORY_BLOCKS ≤ t.highest := hm
    exact (hother m (by omega)).trans (h.pruned m hm)
  · exact h.slots n (hbase ▸ hn) (by omega)

theorem Trace.Run.kept (hk : CollisionFree c.keccak256) (hstart : start.Start c) (run : Run c Recent start t) :
    ∃ head, t.Kept c head := by
  induction run with
  | start => exact ⟨_, hstart.kept⟩
  | commit run hhead hnumber hexact hrun ih =>
    obtain ⟨head, h⟩ := ih
    obtain rfl : head = _ := Option.some.inj (h.head_eq.symm.trans hhead)
    exact ⟨_, h.commit hk hnumber hexact hrun⟩
  | unwind run hok hrun ih =>
    obtain ⟨head, h⟩ := ih
    obtain ⟨p, -, hp⟩ := h.unwind hk hok hrun
    exact ⟨p, hp⟩

theorem accountAt_eq_asOf (st : State) (a : Address) (n : Nat) : accountAt st a n = st.accHist.asOf a n (st.flat.info a) := by
  unfold accountAt Table.asOf
  cases st.accHist.seek (toLex (a, n + 1)) with
  | none => rfl
  | some e =>
    by_cases ha : (ofLex e.1).1 = a
    · simp only [if_pos ha]
    · simp only [if_neg ha]
      rfl

theorem storageAt_eq_asOf (st : State) (a : Address) (s : U256) (n : Nat) :
    storageAt st a s n = st.stoHist.asOf (slotKey a s) n (st.flat.slot a s) := by
  unfold storageAt Table.asOf
  cases st.stoHist.seek (toLex (slotKey a s, n + 1)) with
  | none => rfl
  | some e =>
    by_cases ha : (ofLex e.1).1 = slotKey a s
    · simp only [if_pos ha]
    · simp only [if_neg ha]
      rfl

variable {n : Nat}

theorem Trace.Kept.accountAt (h : t.Kept c head) (hbase : t.db.blocks.base ≤ n) (hn : n ≤ head)
    (hlow : t.highest ≤ n + HISTORY_BLOCKS) (a : Address) :
    Store.accountAt t.db.state a n = (t.after n).info a := by
  rw [accountAt_eq_asOf, ← h.flat (by omega)]
  refine Table.asOf_eq (fun m => (t.after m).info a) hn (fun m v hm hmh hv => ?_) (fun m hm hmh hnone => ?_)
    fun m hm => ?_
  · exact (h.records m (by omega) hmh (by omega)).account a v hv
  · have hrec := h.records m (by omega) hmh (by omega)
    exact not_not.1 fun hne => hrec.account_changed a hne hnone
  · exact congrFun (congrArg History.account (h.above m hm)) a

theorem Trace.Kept.storageAt (h : t.Kept c head) (hbase : t.db.blocks.base ≤ n) (hn : n ≤ head)
    (hlow : t.highest ≤ n + HISTORY_BLOCKS) (a : Address) (s : U256) :
    Store.storageAt t.db.state a s n = (t.after n).slot a s := by
  rw [storageAt_eq_asOf, ← h.flat (by omega)]
  refine Table.asOf_eq (fun m => (t.after m).slot a s) hn (fun m v hm hmh hv => ?_) (fun m hm hmh hnone => ?_)
    fun m hm => ?_
  · exact (h.records m (by omega) hmh (by omega)).slot a s v hv
  · have hrec := h.records m (by omega) hmh (by omega)
    exact not_not.1 fun hne => hrec.slot_changed a s hne hnone
  · exact congrFun (congrFun (congrArg History.slot (h.above m hm)) a) s

theorem Trace.Kept.accountAt_of_gap (h : t.Kept c head) (hbase : t.db.blocks.base ≤ n) (hn : n + 1 ≤ head)
    (hlow : t.highest ≤ n + 1 + HISTORY_BLOCKS) (a : Address)
    (hgone : (t.db.state.history (n + 1)).account a = none) :
    Store.accountAt t.db.state a n = (t.after (n + 1)).info a := by
  -- the values as they are found: at `n` that of the next block
  let val : Nat → Option AccountInfo := fun m => (t.after (max m (n + 1))).info a
  have hval : ∀ m, n < m → val m = (t.after m).info a := fun m hm => by simp only [val, Nat.max_eq_left (Nat.succ_le_of_lt hm)]
  have hread := Table.asOf_eq (t := t.db.state.accHist) (k := a) val (Nat.le_of_succ_le hn) (fun m v hm hmh hv => ?_)
    (fun m hm hmh hnone => ?_) fun m hm => congrFun (congrArg History.account (h.above m hm)) a
  · rw [accountAt_eq_asOf, ← h.flat (by omega), ← hval head hn, hread]
    simp only [val, max_eq_right (Nat.le_succ n)]
  · have hne : m ≠ n + 1 := by
      rintro rfl
      exact Option.some_ne_none v (hv.symm.trans hgone)
    rw [hval (m - 1) (by omega)]
    exact (h.records m (by omega) hmh (by omega)).account a v hv
  · by_cases hmn : m = n + 1
    · subst hmn
      simp only [val, Nat.add_sub_cancel, max_eq_right (Nat.le_succ n), max_self]
    · have hrec := h.records m (by omega) hmh (by omega)
      rw [hval m hm, hval (m - 1) (by omega)]
      exact not_not.1 fun hne => hrec.account_changed a hne hnone

end Runs

section Mock

def mockStart : Trace := ⟨mockDb, fun _ => State.empty.flat, 0⟩

theorem start_mockStart : mockStart.Start mockHashes where
  consistent := consistent_empty collisionFree_mockKeccak _
  head := rfl
  base := rfl
  history _ := rfl
  after := rfl

def mockInfo : Nat → Option AccountInfo
  | 0 => none
  | n + 1 => some ⟨0, Fin.ofNat _ (n + 1), mockKeccak []⟩

def mockNext (n : Nat) : Executed where
  bundle := ⟨⟨[(1, mockInfo (n + 1))], [], []⟩, ⟨[[(1, mockInfo n)]], []⟩⟩
  block := ⟨⟨n + 1, 1, mockKeccak [], []⟩, [], []⟩
  receipts := []

/-- Any number of such blocks can be committed. -/
theorem run_mockNext (n : Nat) :
    ∃ t, Trace.Run mockHashes Trace.Recent mockStart t ∧ t.Kept mockHashes n ∧ t.highest = n ∧ t.db.blocks.base = 0 ∧
      (n ≠ 0 → ∃ block, t.db.blocks.block mockHashes n = some block) ∧ ∀ m ≤ n, (t.after m).info 1 = mockInfo m := by
  induction n with
  | zero =>
    refine ⟨mockStart, .start, start_mockStart.kept, rfl, rfl, fun h => absurd rfl h, fun m hm => ?_⟩
    rw [Nat.le_zero.1 hm]
    rfl
  | succ n ih =>
    obtain ⟨t, run, hkept, hhigh, hbase, -, hinfo⟩ := ih
    have hexact : ExactReverts mockHashes.keccak256 t.db.state.flat (mockNext n).bundle := by
      have hprior : mockInfo n = t.db.state.flat.info 1 := by
        rw [← hkept.flat (by omega), hinfo n le_rfl]
      have hbundle : (mockNext n).bundle = ⟨⟨[(1, some ⟨0, Fin.ofNat _ (n + 1), mockKeccak []⟩)], [], []⟩,
          ⟨[[(1, t.db.state.flat.info 1)]], []⟩⟩ := by
        rw [← hprior]
        rfl
      rw [hbundle]
      exact exactReverts_one 1 _
    obtain ⟨db, hrun, hdb⟩ := commitBlock_spec collisionFree_mockKeccak hkept.consistent
      (hkept.above (n + 1) (by omega)) hexact
    refine ⟨_, .commit run hkept.head_eq rfl hexact hrun, hkept.commit collisionFree_mockKeccak rfl hexact hrun, ?_, ?_,
      fun _ => ⟨(mockNext n).block, ?_⟩, fun m hm => ?_⟩
    · rw [hhigh]
      simp
    · show db.blocks.base = 0
      rw [hdb.blocks, base_putBlock, hbase]
    · show db.blocks.block mockHashes (n + 1) = _
      rw [hdb.blocks]
      exact block_putBlock
    · by_cases hmn : m = n + 1
      · subst hmn
        simp only [Function.update_self]
        rw [hdb.flat]
        rfl
      · simp only [Function.update_of_ne hmn]
        exact hinfo m (by omega)

end Mock

/-- In runs that undo blocks of the kept window only, reads at a covered block of that window are what the state was
after the block. -/
theorem historical_reads_exact (c : Hashes) (hk : CollisionFree c.keccak256) (start t : Trace) (hstart : start.Start c)
    (run : Trace.Run c Trace.Recent start t) (n : Nat) (hcovers : t.db.blocks.historyCovers n = true)
    (hlow : t.highest ≤ n + HISTORY_BLOCKS) :
    (∀ a, basicRefAt t.db n a = .ok ((t.after n).info a)) ∧
      ∀ a s, storageRefAt t.db n a s = .ok ((t.after n).slot a s) := by
  obtain ⟨head, h⟩ := run.kept hk hstart
  have hwindow := hcovers
  simp only [Blocks.historyCovers, h.head_eq, Option.getD_some, decide_eq_true_eq] at hwindow
  constructor
  · intro a
    rw [basicRefAt, if_pos hcovers, h.accountAt hwindow.2.2 hwindow.1 hlow]
  · intro a s
    rw [storageRefAt, if_pos hcovers, h.storageAt hwindow.2.2 hwindow.1 hlow]

theorem historical_reads_exact_mock :
    ∃ t, Trace.Run mockHashes Trace.Recent mockStart t ∧ t.db.blocks.head = some 3 ∧
      basicRefAt t.db 1 1 = .ok (mockInfo 1) := by
  obtain ⟨t, run, hkept, hhigh, hbase, -, hinfo⟩ := run_mockNext 3
  have hcovers : t.db.blocks.historyCovers 1 = true := by
    simp [Blocks.historyCovers, hkept.head_eq, hbase, HISTORY_BLOCKS]
  refine ⟨t, run, hkept.head_eq, ?_⟩
  rw [← hinfo 1 (by omega)]
  exact (historical_reads_exact mockHashes collisionFree_mockKeccak mockStart t start_mockStart run 1 hcovers
    (by rw [hhigh]; decide)).1 1

/-- After 129 blocks the history of the first is gone. With the last block undone, block 0 is covered again, and the
account that the first block created is there. -/
theorem covered_read_is_wrong :
    ∃ t, mockStart.Start mockHashes ∧ Trace.Run mockHashes Trace.Recent mockStart t ∧
      t.db.blocks.historyCovers 0 = true ∧ (t.after 0).info 1 = none ∧ basicRefAt t.db 0 1 = .ok (mockInfo 1) := by
  obtain ⟨t, run, hkept, hhigh, hbase, hblock, hinfo⟩ := run_mockNext 129
  obtain ⟨block, hblock⟩ := hblock (by decide)
  have hrecent : t.Recent := by
    unfold Trace.Recent
    rw [hkept.head_eq, hhigh]
    decide
  obtain ⟨removed, db, hrun⟩ : ∃ removed db, unwindHead mockHashes t.db = .ok (removed, db) := by
    have hrec := hkept.records 129 (by omega) le_rfl (by rw [hhigh]; decide)
    rw [hkept.flat (by omega)] at hrec
    obtain ⟨root, st, hstate, -⟩ := unwindState_spec collisionFree_mockKeccak hkept.consistent hrec
      (hkept.slots 128 (by omega) (by omega))
    have hcovers : t.db.blocks.historyCovers 129 = true := by
      simp [Blocks.historyCovers, hkept.head_eq, hbase]
    obtain ⟨blocks, hremove⟩ := removeHeadBlock_of_block hblock
    exact ⟨_, _, unwindHead_eq hkept.head_eq (by rw [hcovers]; exact hstate) hremove⟩
  obtain ⟨p, hp, hkept'⟩ := hkept.unwind collisionFree_mockKeccak hrecent hrun
  obtain rfl : p = 128 := by omega
  have hbase' : db.blocks.base = 0 := by
    obtain ⟨-, -, -, -, hsame⟩ := unwindHead_ok hrun
    rw [hsame, hbase]
  have hcovers : db.blocks.historyCovers 0 = true := by
    have hhead : db.blocks.head = some 128 := hkept'.head_eq
    simp [Blocks.historyCovers, hhead, hbase', HISTORY_BLOCKS]
  refine ⟨⟨db, t.after, t.highest⟩, start_mockStart, .unwind run hrecent hrun, hcovers, hinfo 0 (by omega), ?_⟩
  have hgone : db.state.history 1 = History.empty := hkept'.pruned 1 (by rw [hhigh]; decide)
  -- with the first version gone, block 0 reads as block 1
  have hread := hkept'.accountAt_of_gap (n := 0) hbase'.le (by omega) (by rw [hhigh]; decide) 1
    (congrFun (congrArg History.account hgone) 1)
  rw [basicRefAt, if_pos hcovers, hread, hinfo 1 (by omega)]

end Boltchain.Store
