import Boltchain.Lib.Assoc
import Boltchain.Store.TrieCommit

namespace Boltchain.Store

open Consensus (Bytes)
open Lib Patricia

section Keys

theorem length_toNibbles (key : B256) : (toNibbles key).length = 64 := by
  have hlen : ∀ bs : Bytes, (bs.flatMap fun b => [highNibble b, lowNibble b]).length = 2 * bs.length := by
    intro bs
    induction bs with
    | nil => rfl
    | cons b bs ih =>
      rw [List.flatMap_cons, List.length_append, ih]
      simp only [List.length_cons, List.length_nil]
      omega
  rw [toNibbles, hlen, key.length_eq]

theorem pairs_flatMap (bs : Bytes) : pairs (bs.flatMap fun b => [highNibble b, lowNibble b]) = bs := by
  induction bs with
  | nil => rfl
  | cons b bs ih =>
    have hb : UInt8.ofNat ((highNibble b).val * 16 + (lowNibble b).val) = b := by
      have hval : (highNibble b).val * 16 + (lowNibble b).val = b.toNat := by
        show b.toNat / 16 * 16 + b.toNat % 16 = _
        omega
      rw [hval, UInt8.ofNat_toNat]
    show UInt8.ofNat _ :: pairs (bs.flatMap fun b => [highNibble b, lowNibble b]) = _
    rw [ih, hb]

theorem toNibbles_injective : Function.Injective toNibbles := by
  intro a b h
  have hbytes : a.bytes = b.bytes := by
    rw [← pairs_flatMap a.bytes, ← pairs_flatMap b.bytes]
    exact congrArg pairs h
  cases a
  cases b
  cases hbytes
  rfl

theorem exists_toNibbles {p : Path} (h : p.length = 64) : ∃ key, toNibbles key = p :=
  ⟨⟨pairs p, by rw [length_pairs, h]⟩, flatMap_pairs (by rw [h])⟩

end Keys

abbrev TrieMap := B256 → Option Value

def TrieOp.denote (map : TrieMap) : TrieOp → TrieMap
  | .insert key value => Function.update map key (some value)
  | .remove key => Function.update map key none

def denote (ops : List TrieOp) : TrieMap := ops.foldl TrieOp.denote fun _ => none

structure Lists (es : List (B256 × Value)) (map : TrieMap) : Prop where
  nodup : (es.map Prod.fst).Nodup
  mem : ∀ key value, (key, value) ∈ es ↔ map key = some value

/-- The Merkle-Patricia tree of entries, straight from its definition. -/
def mpt (es : List (B256 × Value)) : Mpt := Tree.ofEntries 64 (es.map fun e => (toNibbles e.1, e.2))

def mptRoot (keccak256 : Bytes → B256) (es : List (B256 × Value)) : B256 := rootOf keccak256 (mpt es)

def mptNodes (keccak256 : Bytes → B256) (es : List (B256 × Value)) : Path → Option Bytes := nodesOf keccak256 (mpt es)

/-- The results of batches, each committed and stored before the next. -/
def runBatches (keccak256 : Bytes → B256) :
    (Path → Option Bytes) → List (List TrieOp) → Except TrieError (List (B256 × (Path → Option Bytes)))
  | _, [] => .ok []
  | nodes, batch :: batches => do
    let (root, nodes) ← runBatch keccak256 nodes batch
    let results ← runBatches keccak256 nodes batches
    .ok ((root, nodes) :: results)

structure Holds (s : Mpt) (map : TrieMap) : Prop where
  canon : s.Canon 64
  lookup : ∀ key, s.lookup (toNibbles key) = map key

section Maps

variable {keccak256 : Bytes → B256} {base s s' : Mpt} {t : Trie} {map : TrieMap} {es : List (B256 × Value)}

theorem Holds.unique (h : Holds s map) (h' : Holds s' map) : s = s' := by
  refine h.canon.unique h'.canon fun p => ?_
  by_cases hp : p.length = 64
  · obtain ⟨key, rfl⟩ := exists_toNibbles hp
    rw [h.lookup, h'.lookup]
  · have hnone : ∀ {u : Mpt}, u.Canon 64 → u.lookup p = none := by
      intro u hu
      by_contra hne
      obtain ⟨v, hv⟩ := Option.ne_none_iff_exists'.1 hne
      exact hp (hu.length hv)
    rw [hnone h.canon, hnone h'.canon]

theorem holds_mpt (h : Lists es map) : Holds (mpt es) map := by
  have hkeyed : Tree.Keyed 64 (es.map fun e => (toNibbles e.1, e.2)) := by
    refine ⟨fun e he => ?_, ?_⟩
    · obtain ⟨f, -, rfl⟩ := List.mem_map.1 he
      exact length_toNibbles f.1
    · rw [List.map_map]
      have := h.nodup.map toNibbles_injective
      rwa [List.map_map] at this
  obtain ⟨hcanon, hlookup⟩ := Tree.ofEntries_spec le_rfl hkeyed
  refine ⟨hcanon, fun key => Option.ext fun v => ?_⟩
  rw [mpt, hlookup, ← h.mem]
  simp only [List.mem_map, Prod.mk.injEq]
  constructor
  · rintro ⟨⟨key', v'⟩, hmem, hkey, rfl⟩
    rwa [← toNibbles_injective hkey]
  · intro hmem
    exact ⟨_, hmem, rfl, rfl⟩

theorem TrieOp.run_spec (hsource : t.source = nodesOf keccak256 base) (hs : Stands keccak256 base t [] s)
    (h : Holds s map) (op : TrieOp) :
    ∃ t' s', op.run t = .ok t' ∧ t'.source = t.source ∧ Stands keccak256 base t' [] s' ∧ Holds s' (op.denote map) := by
  cases op with
  | insert key value =>
    obtain ⟨t', hrun, hframe, hs'⟩ := insertAt_spec hsource le_rfl h.canon hs (length_toNibbles key)
      (by omega : _ < 65) value
    refine ⟨t', _, hrun, hframe.source, hs', h.canon.insert (length_toNibbles key), fun key' => ?_⟩
    rw [h.canon.lookup_insert (length_toNibbles key), h.lookup]
    by_cases hkey : key' = key
    · simp [TrieOp.denote, hkey]
    · simp [TrieOp.denote, hkey, toNibbles_injective.ne hkey]
  | remove key =>
    have hholds : Holds (s.remove (toNibbles key)) ((TrieOp.remove key).denote map) := by
      refine ⟨h.canon.remove _, fun key' => ?_⟩
      rw [h.canon.lookup_remove, h.lookup]
      by_cases hkey : key' = key
      · simp [TrieOp.denote, hkey]
      · simp [TrieOp.denote, hkey, toNibbles_injective.ne hkey]
    obtain ⟨hlook, hwalk⟩ | ⟨leafPath, node, above, t', o, hwalk, hrepair, hframe, -, hs'⟩ :=
      remove_spec hsource le_rfl h.canon hs (length_toNibbles key) (by omega : _ < 65)
    · refine ⟨t, s, ?_, rfl, hs, ?_⟩
      · simp only [TrieOp.run, Trie.removeKey, hwalk, bind, Except.bind]
      · rwa [← h.canon.remove_of_lookup hlook]
    · refine ⟨t', _, ?_, hframe.source, hs', hholds⟩
      have hrun := hrepair []
      rw [List.append_nil] at hrun
      simp only [TrieOp.run, Trie.removeKey, hwalk, bind, Except.bind, List.append_nil, hrun]
      rfl

theorem foldlM_run_spec (hsource : t.source = nodesOf keccak256 base) (hs : Stands keccak256 base t [] s)
    (h : Holds s map) (ops : List TrieOp) :
    ∃ t' s', ops.foldlM TrieOp.run t = .ok t' ∧ t'.source = t.source ∧ Stands keccak256 base t' [] s' ∧
      Holds s' (ops.foldl TrieOp.denote map) := by
  induction ops generalizing t s map with
  | nil => exact ⟨t, s, rfl, rfl, hs, h⟩
  | cons op ops ih =>
    obtain ⟨t₁, s₁, hrun, hsource₁, hs₁, h₁⟩ := op.run_spec hsource hs h
    obtain ⟨t', s', hruns, hsource', hs', h'⟩ := ih (hsource₁.trans hsource) hs₁ h₁
    refine ⟨t', s', ?_, hsource'.trans hsource₁, hs', h'⟩
    rw [List.foldlM_cons, hrun]
    exact hruns

theorem runBatch_spec (keccak256 : Bytes → B256) (h : Holds base map) (batch : List TrieOp) :
    ∃ s, runBatch keccak256 (nodesOf keccak256 base) batch = .ok (rootOf keccak256 s, nodesOf keccak256 s) ∧
      Holds s (batch.foldl TrieOp.denote map) := by
  obtain ⟨t, s, hrun, hsource, hs, hholds⟩ := foldlM_run_spec (t := Trie.new (nodesOf keccak256 base)) rfl
    (stands_new _) h batch
  obtain ⟨writes, hcommit, hnodes⟩ := commit_spec hsource hholds.canon hs
  refine ⟨s, ?_, hholds⟩
  simp only [runBatch, hrun, hcommit, hnodes, bind, Except.bind]

theorem holds_empty : Holds .empty fun _ => none := ⟨.empty, fun _ => rfl⟩

theorem foldl_insert {l : List (B256 × Value)} (hl : (l.map Prod.fst).Nodup) (key : B256) (v : Value) :
    (l.map fun e => TrieOp.insert e.1 e.2).foldl TrieOp.denote map key = some v ↔
      (key, v) ∈ l ∨ key ∉ l.map Prod.fst ∧ map key = some v := by
  induction l generalizing map with
  | nil => simp
  | cons e l ih =>
    obtain ⟨he, hl⟩ := List.nodup_cons.1 hl
    rw [List.map_cons, List.foldl_cons, ih hl]
    obtain ⟨k, w⟩ := e
    by_cases hkey : key = k
    · subst hkey
      have hnone : (key, v) ∉ l := fun hmem => he (List.mem_map.2 ⟨_, hmem, rfl⟩)
      simp only [TrieOp.denote, Function.update_self, Option.some.injEq, List.mem_cons, Prod.mk.injEq, true_and,
        List.map_cons, not_or, not_true_eq_false, false_and, or_false, hnone, false_or]
      exact ⟨fun h => h.2.symm, fun h => ⟨he, h.symm⟩⟩
    · simp [TrieOp.denote, hkey]

theorem runBatch_fresh (h : Lists es map) :
    runBatch keccak256 (fun _ => none) (es.map fun e => .insert e.1 e.2) =
      .ok (mptRoot keccak256 es, mptNodes keccak256 es) := by
  obtain ⟨s, hrun, hs⟩ := runBatch_spec keccak256 holds_empty (es.map fun e => .insert e.1 e.2)
  have hmap : (es.map fun e => TrieOp.insert e.1 e.2).foldl TrieOp.denote (fun _ => none) = map := by
    funext key
    refine Option.ext fun v => ?_
    rw [foldl_insert h.nodup, ← h.mem]
    simp
  rw [hmap] at hs
  rw [nodesOf_empty] at hrun
  rw [hrun, hs.unique (holds_mpt h)]
  rfl

theorem exists_lists (ops : List TrieOp) : ∃ es, Lists es (denote ops) := by
  induction ops using List.reverseRecOn with
  | nil => exact ⟨[], by simp, by simp [denote]⟩
  | append_singleton ops op ih =>
    obtain ⟨es, hes⟩ := ih
    have hdel : ∀ key : B256, ((Assoc.del es key).map Prod.fst).Nodup ∧
        ∀ key' v, (key', v) ∈ Assoc.del es key ↔ key' ≠ key ∧ denote ops key' = some v := by
      intro key
      refine ⟨hes.nodup.sublist (Assoc.keys_del_sublist es key), fun key' v => ?_⟩
      rw [← hes.mem, Assoc.del, List.mem_filter, decide_eq_true_iff, and_comm]
    have hdenote : denote (ops ++ [op]) = op.denote (denote ops) := List.foldl_concat ..
    rw [hdenote]
    cases op with
    | insert key value =>
      refine ⟨Assoc.put es key value, Assoc.nodup_keys_put hes.nodup, fun key' v => ?_⟩
      show (key', v) ∈ (key, value) :: Assoc.del es key ↔ _
      rw [List.mem_cons, (hdel key).2]
      by_cases hkey : key' = key
      · simp [TrieOp.denote, hkey, eq_comm]
      · simp [TrieOp.denote, hkey]
    | remove key =>
      refine ⟨Assoc.del es key, (hdel key).1, fun key' v => ?_⟩
      rw [(hdel key).2]
      by_cases hkey : key' = key
      · simp [TrieOp.denote, hkey]
      · simp [TrieOp.denote, hkey]

theorem runBatches_spec (keccak256 : Bytes → B256) (h : Holds base map) (batches : List (List TrieOp)) :
    ∃ trees : List Mpt, runBatches keccak256 (nodesOf keccak256 base) batches =
        .ok (trees.map fun s => (rootOf keccak256 s, nodesOf keccak256 s)) ∧
      trees.length = batches.length ∧
      ∀ i s, trees[i]? = some s → Holds s ((batches.take (i + 1)).flatten.foldl TrieOp.denote map) := by
  induction batches generalizing base map with
  | nil => exact ⟨[], rfl, rfl, by simp⟩
  | cons batch batches ih =>
    obtain ⟨s, hrun, hs⟩ := runBatch_spec keccak256 h batch
    obtain ⟨trees, hruns, hlen, htrees⟩ := ih hs
    refine ⟨s :: trees, ?_, by rw [List.length_cons, hlen, List.length_cons], fun i u hu => ?_⟩
    · simp only [runBatches, hrun, hruns, bind, Except.bind]
      rfl
    · rw [List.take_succ_cons, List.flatten_cons, List.foldl_append]
      cases i with
      | zero =>
        cases hu
        exact hs
      | succ i => exact htrees i u hu

end Maps

section Stored

variable (keccak256 : Bytes → B256)

def Stores (nodes : Path → Option Bytes) (map : TrieMap) : Prop := ∃ s, Holds s map ∧ nodes = nodesOf keccak256 s

def Rooted (root : B256) (map : TrieMap) : Prop := ∃ s, Holds s map ∧ root = rootOf keccak256 s

def InSession (t : Trie) (map : TrieMap) : Prop :=
  ∃ base s, t.source = nodesOf keccak256 base ∧ Stands keccak256 base t [] s ∧ Holds s map

variable {keccak256} {nodes nodes' : Path → Option Bytes} {root root' : B256} {map : TrieMap} {t : Trie}
  {es : List (B256 × Value)}

theorem stores_empty : Stores keccak256 (fun _ => none) fun _ => none := ⟨.empty, holds_empty, nodesOf_empty.symm⟩

theorem rooted_empty : Rooted keccak256 (Trie.emptyRootHash keccak256) fun _ => none := ⟨.empty, holds_empty, rfl⟩

theorem Rooted.eq_mptRoot (h : Rooted keccak256 root map) (hes : Lists es map) : root = mptRoot keccak256 es := by
  obtain ⟨s, hs, rfl⟩ := h
  rw [hs.unique (holds_mpt hes)]
  rfl

theorem Stores.unique (h : Stores keccak256 nodes map) (h' : Stores keccak256 nodes' map) : nodes = nodes' := by
  obtain ⟨s, hs, rfl⟩ := h
  obtain ⟨s', hs', rfl⟩ := h'
  rw [hs.unique hs']

theorem Rooted.unique (h : Rooted keccak256 root map) (h' : Rooted keccak256 root' map) : root = root' := by
  obtain ⟨s, hs, rfl⟩ := h
  obtain ⟨s', hs', rfl⟩ := h'
  rw [hs.unique hs']

theorem Stores.session (h : Stores keccak256 nodes map) : InSession keccak256 (Trie.new nodes) map := by
  obtain ⟨s, hs, rfl⟩ := h
  exact ⟨s, s, rfl, stands_new _, hs⟩

theorem InSession.insert (h : InSession keccak256 t map) (key : B256) (value : Value) :
    ∃ t', t.insert key value = .ok t' ∧ t'.source = t.source ∧
      InSession keccak256 t' (Function.update map key (some value)) := by
  obtain ⟨base, s, hsource, hs, hmap⟩ := h
  obtain ⟨t', s', hrun, hsource', hs', hmap'⟩ := (TrieOp.insert key value).run_spec hsource hs hmap
  exact ⟨t', hrun, hsource', base, s', hsource'.trans hsource, hs', hmap'⟩

theorem InSession.remove (h : InSession keccak256 t map) (key : B256) :
    ∃ t', t.removeKey key = .ok t' ∧ t'.source = t.source ∧
      InSession keccak256 t' (Function.update map key none) := by
  obtain ⟨base, s, hsource, hs, hmap⟩ := h
  obtain ⟨t', s', hrun, hsource', hs', hmap'⟩ := (TrieOp.remove key).run_spec hsource hs hmap
  exact ⟨t', hrun, hsource', base, s', hsource'.trans hsource, hs', hmap'⟩

theorem InSession.commit (h : InSession keccak256 t map) :
    ∃ root writes, t.commit keccak256 = .ok (root, writes) ∧ Rooted keccak256 root map ∧
      Stores keccak256 (applyWrites t.source writes) map := by
  obtain ⟨base, s, hsource, hs, hmap⟩ := h
  obtain ⟨writes, hcommit, hnodes⟩ := commit_spec hsource hmap.canon hs
  refine ⟨_, writes, hcommit, ⟨s, hmap, rfl⟩, s, hmap, ?_⟩
  rw [hsource, hnodes]

end Stored

/-- Every batch of insertions and removals, committed and stored, leaves the reference root and exactly the
reference nodes of the map denoted so far: those that a new trie with the same entries, inserted in any order,
leaves too. -/
theorem trie_canonical (keccak256 : Bytes → B256) (batches : List (List TrieOp)) :
    ∃ results, runBatches keccak256 (fun _ => none) batches = .ok results ∧ results.length = batches.length ∧
      ∀ i r, results[i]? = some r →
        (∃ es, Lists es (denote (batches.take (i + 1)).flatten)) ∧
        ∀ es, Lists es (denote (batches.take (i + 1)).flatten) →
          r.1 = mptRoot keccak256 es ∧ r.2 = mptNodes keccak256 es ∧
          runBatch keccak256 (fun _ => none) (es.map fun e => .insert e.1 e.2) = .ok r := by
  obtain ⟨trees, hrun, hlen, htrees⟩ := runBatches_spec keccak256 holds_empty batches
  rw [nodesOf_empty] at hrun
  refine ⟨_, hrun, by rw [List.length_map, hlen], fun i r hr => ⟨exists_lists _, fun es hes => ?_⟩⟩
  rw [List.getElem?_map, Option.map_eq_some_iff] at hr
  obtain ⟨s, hs, rfl⟩ := hr
  have heq := (htrees i s hs).unique (holds_mpt hes)
  rw [runBatch_fresh hes, heq]
  exact ⟨rfl, rfl, rfl⟩

end Boltchain.Store
