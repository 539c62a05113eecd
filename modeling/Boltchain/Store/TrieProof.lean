import Boltchain.Store.TrieCanon

namespace Boltchain.Store

open Consensus (Bytes)
open Lib Patricia

section Prover

/-- The nodes of a proof from `path` on. The number bounds the steps: a key has 64 nibbles. -/
def proofAt (source : Path → Option Bytes) : Nat → Path → Path → Except TrieError (List Bytes)
  | 0, path, _ => .error (.corrupt path)
  | fuel + 1, path, rest =>
    match source path with
    | none => .ok []
    | some rlp => do
      let node ← (decodeNode rlp).elim (.error (.corrupt path)) .ok
      -- shorter nodes are embedded in their parents
      let out := if path = [] ∨ 32 ≤ rlp.length then [rlp] else []
      match node with
      | .leaf .. => .ok out
      | .ext key _ =>
        match strip key rest with
        | none => .ok out
        | some rest => (proofAt source fuel (path ++ key) rest).map (out ++ ·)
      | .branch children =>
        match rest with
        | [] => .ok out
        | nib :: rest =>
          if (children nib).isNone then .ok out
          else (proofAt source fuel (path ++ [nib]) rest).map (out ++ ·)

/-- Merkle proof of `key`: the RLP of every node on the path from the root, root first. Proves presence
when the path ends at the key's leaf, absence otherwise. -/
def proof (source : Path → Option Bytes) (key : B256) : Except TrieError (List Bytes) :=
  proofAt source 65 [] (toNibbles key)

end Prover

section Verifier

variable (keccak256 : Bytes → B256)

def whenUsed (proof : List Bytes) (verdict : Option Bytes) : Option (Option Bytes) :=
  if proof = [] then some verdict else none

/-- Goes on at a reference: an embedded node, or the hash of the next node of the proof. -/
def follow (verify : Bytes → Path → List Bytes → Option (Option Bytes)) (r : Bytes) (rest : Path) :
    List Bytes → Option (Option Bytes)
  | [] => if r.length = 32 then none else verify r rest []
  | rlp :: proof =>
    if r.length = 32 then if (keccak256 rlp).bytes = r then verify rlp rest proof else none
    else verify r rest (rlp :: proof)

/-- Verifies that `rlp` leads on to the rest of a key: `none` if the proof is refused, else the value, or
`none` for its absence. -/
def verifyNode : Nat → Bytes → Path → List Bytes → Option (Option Bytes)
  | 0, _, _, _ => none
  | fuel + 1, rlp, rest, proof =>
    match decodeNode rlp with
    | none => none
    | some (.leaf key value) => whenUsed proof (if key = rest then some value else none)
    | some (.ext key child) =>
      match strip key rest with
      | none => whenUsed proof none
      | some rest => follow keccak256 (verifyNode fuel) (child.getD []) rest proof
    | some (.branch children) =>
      match rest with
      | [] => none
      | nib :: rest =>
        match children nib with
        | none => whenUsed proof none
        | some r => follow keccak256 (verifyNode fuel) (r.getD []) rest proof

/-- A Merkle-Patricia verifier: what a list of nodes proves of a key under a root. -/
def verifyProof (root : B256) (key : B256) : List Bytes → Option (Option Bytes)
  | [] => if root = Trie.emptyRootHash keccak256 then some none else none
  | rlp :: proof => if keccak256 rlp = root then verifyNode keccak256 65 rlp (toNibbles key) proof else none

end Verifier

section Proofs

variable {keccak256 : Bytes → B256} {base s c : Mpt} {path rest : Path} {m fuel : Nat}

def listed (keccak256 : Bytes → B256) (path : Path) (s : Mpt) : List Bytes :=
  if path = [] ∨ 32 ≤ (rlpOf keccak256 s).length then [rlpOf keccak256 s] else []

theorem follow_listed {verify : Bytes → Path → List Bytes → Option (Option Bytes)} {tail : List Bytes}
    (hpath : path ≠ []) :
    follow keccak256 verify (refOf keccak256 c) rest (listed keccak256 path c ++ tail) =
      verify (rlpOf keccak256 c) rest tail := by
  unfold refOf Trie.childRef listed
  by_cases hlen : (rlpOf keccak256 c).length < 32
  · rw [if_pos hlen, if_neg (by simp [hpath]; omega), List.nil_append]
    cases tail with
    | nil => rw [follow, if_neg (by omega)]
    | cons rlp tail => rw [follow, if_neg (by omega)]
  · rw [if_neg hlen, if_pos (.inr (by omega)), List.singleton_append, follow, if_pos (keccak256 _).length_eq,
      if_pos rfl]

theorem decodeNode_rlpOf (keccak256 : Bytes → B256) {n : Node} (hc : s.Canon m) (hm : m ≤ 64) (hn : nodeOf keccak256 s = some n) :
    decodeNode (rlpOf keccak256 s) = some n := by
  rw [rlpOf_eq hn]
  exact decodeNode_encodeNode (resolved_nodeOf hc hm hn).codable

/-- From every node on the prover and the verifier take the same way. -/
theorem proofAt_spec (hm : m ≤ 64) (hc : s.Canon m) (hne : s ≠ .empty) (hbase : base.sub path = s)
    (hrest : rest.length = m) (hfuel : m < fuel) :
    ∃ tail, proofAt (nodesOf keccak256 base) fuel path rest = .ok (listed keccak256 path s ++ tail) ∧
      verifyNode keccak256 fuel (rlpOf keccak256 s) rest tail = some ((s.lookup rest).map Value.bytes) := by
  induction hc generalizing path rest fuel with
  | empty => exact absurd rfl hne
  | @leaf m k v hk =>
    obtain ⟨fuel, rfl⟩ : ∃ f, fuel = f + 1 := ⟨fuel - 1, by omega⟩
    have hdecode := decodeNode_rlpOf keccak256 (.leaf (v := v) hk) hm rfl
    refine ⟨[], ?_, ?_⟩
    · simp only [proofAt, nodesOf_of_ne (by rwa [hbase]), hbase, hdecode, Option.elim_some, bind, Except.bind,
        List.append_nil]
      rfl
    · simp only [verifyNode, hdecode, whenUsed, if_true, Tree.lookup]
      by_cases hkey : rest = k
      · simp [hkey]
      · simp [hkey, Ne.symm hkey]
  | @ext m k cs hk hcs ih =>
    obtain ⟨fuel, rfl⟩ : ∃ f, fuel = f + 1 := ⟨fuel - 1, by omega⟩
    have hdecode := decodeNode_rlpOf keccak256 (.ext hk hcs) hm rfl
    simp only [proofAt, nodesOf_of_ne (by rwa [hbase]), hbase, hdecode, Option.elim_some, bind, Except.bind, verifyNode,
      Tree.lookup]
    cases hsp : strip k rest with
    | none => exact ⟨[], by rw [List.append_nil]; rfl, by simp [whenUsed]⟩
    | some q =>
      obtain rfl := strip_eq_some.1 hsp
      have hlen := List.length_pos_of_ne_nil hk
      rw [List.length_append] at hrest
      have hchild : base.sub (path ++ k) = .branch cs := by
        have := Tree.sub_ext_append (t := .branch cs) (q := []) hk
        rw [List.append_nil, Tree.sub_nil] at this
        rw [Tree.sub_append (by rwa [hbase]), hbase, this]
      obtain ⟨tail, hproof, hverify⟩ := ih (by omega) (by simp) hchild (by omega : q.length = _)
        (by omega : _ < fuel)
      refine ⟨listed keccak256 (path ++ k) (.branch cs) ++ tail, ?_, ?_⟩
      · simp only [hproof, Except.map]
        rfl
      · exact (follow_listed (by simp [hk])).trans hverify
  | @branch m cs i j hij hi hj hcs ih =>
    obtain ⟨fuel, rfl⟩ : ∃ f, fuel = f + 1 := ⟨fuel - 1, by omega⟩
    have hdecode := decodeNode_rlpOf keccak256 (.branch hij hi hj hcs) hm rfl
    cases rest with
    | nil => simp at hrest
    | cons x rest =>
      simp only [proofAt, nodesOf_of_ne (by rwa [hbase]), hbase, hdecode, Option.elim_some, bind, Except.bind, verifyNode,
        Tree.lookup]
      by_cases hx : cs x = .empty
      · refine ⟨[], ?_, ?_⟩
        · simp only [hx, Tree.isEmpty, if_true, Option.isNone_none, List.append_nil]
          rfl
        · simp [hx, Tree.isEmpty, whenUsed, Tree.lookup]
      · have hchild : base.sub (path ++ [x]) = cs x := by
          rw [Tree.sub_append (by rwa [hbase]), hbase]
          exact Tree.sub_nil _
        obtain ⟨tail, hproof, hverify⟩ := ih x (by omega) hx hchild (by simpa using hrest : rest.length = _)
          (by omega : _ < fuel)
        have hfull : (cs x).isEmpty = false := Bool.eq_false_iff.2 (mt Tree.isEmpty_iff.1 hx)
        refine ⟨listed keccak256 (path ++ [x]) (cs x) ++ tail, ?_, ?_⟩
        · simp only [hfull, Bool.false_eq_true, if_false, Option.isNone_some, hproof, Except.map]
          rfl
        · simp only [hfull, Bool.false_eq_true, if_false, Option.getD_some]
          rw [follow_listed (by simp), hverify]

theorem proof_spec (keccak256 : Bytes → B256) (hc : base.Canon 64) (key : B256) :
    ∃ nodes, proof (nodesOf keccak256 base) key = .ok nodes ∧
      verifyProof keccak256 (rootOf keccak256 base) key nodes =
        some ((base.lookup (toNibbles key)).map Value.bytes) := by
  by_cases hne : base = .empty
  · subst hne
    refine ⟨[], ?_, ?_⟩
    · simp only [proof, proofAt, nodesOf_empty]
    · exact if_pos rfl
  · obtain ⟨tail, hproof, hverify⟩ := proofAt_spec le_rfl hc hne
      (Tree.sub_nil base) (length_toNibbles key) (by omega : _ < 65)
    refine ⟨_, hproof, ?_⟩
    rw [listed, if_pos (.inl rfl), List.singleton_append, verifyProof]
    exact (if_pos rfl).trans hverify

end Proofs

/-- After every batch, the proof of any key is accepted under the committed root, as one of the value the key
has or of its absence. -/
theorem proofs_accepted (keccak256 : Bytes → B256) (batches : List (List TrieOp)) :
    ∃ results, runBatches keccak256 (fun _ => none) batches = .ok results ∧ results.length = batches.length ∧
      ∀ i r, results[i]? = some r → ∀ key, ∃ nodes, proof r.2 key = .ok nodes ∧
        verifyProof keccak256 r.1 key nodes =
          some ((denote (batches.take (i + 1)).flatten key).map Value.bytes) := by
  obtain ⟨trees, hrun, hlen, htrees⟩ := runBatches_spec keccak256 holds_empty batches
  rw [nodesOf_empty] at hrun
  refine ⟨_, hrun, by rw [List.length_map, hlen], fun i r hr key => ?_⟩
  rw [List.getElem?_map, Option.map_eq_some_iff] at hr
  obtain ⟨s, hs, rfl⟩ := hr
  have hholds := htrees i s hs
  obtain ⟨nodes, hproof, hverify⟩ := proof_spec keccak256 hholds.canon key
  refine ⟨nodes, hproof, ?_⟩
  rw [hverify, hholds.lookup]
  rfl

end Boltchain.Store
