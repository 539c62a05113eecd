import Boltchain.Store.TrieCodec

namespace Boltchain.Store

open Consensus (Bytes)
open Lib Patricia

/-- What a trie is meant to be: a tree without hashes, dirty nodes or a database. -/
abbrev Mpt := Patricia.Tree Nibble Value

section Encoding

variable (keccak256 : Bytes → B256)

def rlpOf : Mpt → Bytes
  | .empty => emptyString
  | .leaf k v => encodeNode (.leaf k v.bytes)
  | .ext k c => encodeNode (.ext k (some (Trie.childRef keccak256 (rlpOf c))))
  | .branch cs =>
    encodeNode (.branch fun i =>
      if (cs i).isEmpty then none else some (some (Trie.childRef keccak256 (rlpOf (cs i)))))

def refOf (t : Mpt) : Bytes := Trie.childRef keccak256 (rlpOf keccak256 t)

def nodeOf : Mpt → Option Node
  | .empty => none
  | .leaf k v => some (.leaf k v.bytes)
  | .ext k c => some (.ext k (some (refOf keccak256 c)))
  | .branch cs => some (.branch fun i => if (cs i).isEmpty then none else some (some (refOf keccak256 (cs i))))

def nodesOf (t : Mpt) : Path → Option Bytes := fun p => (nodeOf keccak256 (t.sub p)).map encodeNode

def rootOf (t : Mpt) : B256 := keccak256 (rlpOf keccak256 t)

variable {keccak256}

variable {n : Node} {t : Mpt}

theorem rlpOf_eq (h : nodeOf keccak256 t = some n) : rlpOf keccak256 t = encodeNode n := by
  cases t <;> cases h <;> rfl

theorem nodeOf_eq_none : nodeOf keccak256 t = none ↔ t = .empty := by
  cases t <;> simp [nodeOf]

theorem isRef_childRef (n : Node) : IsRef (Trie.childRef keccak256 (encodeNode n)) := by
  have hlist : ∃ payload, encodeNode n = Rlp.list payload := by
    cases n <;> exact ⟨_, rfl⟩
  obtain ⟨payload, hpayload⟩ := hlist
  unfold Trie.childRef
  split
  case isTrue h =>
    have hlen : payload.length < 2 ^ 64 := by
      rw [hpayload, Rlp.list, List.length_append] at h
      omega
    exact .inr ⟨h, payload, hpayload ▸ Rlp.isItem_list hlen⟩
  case isFalse => exact .inl (keccak256 _).length_eq

/-- Nodes are read back, whatever they embed or refer to by hash, and no two share an encoding. -/
theorem node_codec_exact (keccak256 : Bytes → B256) :
    (∀ n, Codable n → decodeNode (encodeNode n) = some n) ∧
    (∀ nibbles leaf, hexPrefixDecode (hexPrefix nibbles leaf) = some (nibbles, leaf)) ∧
    (∀ m n, Codable m → Codable n → encodeNode m = encodeNode n → m = n) ∧
    ∀ n, IsRef (Trie.childRef keccak256 (encodeNode n)) := by
  refine ⟨fun n h => decodeNode_encodeNode h, hexPrefixDecode_hexPrefix, fun m n hm hn heq => ?_, isRef_childRef⟩
  have hdecode := decodeNode_encodeNode hm
  rw [heq, decodeNode_encodeNode hn] at hdecode
  exact (Option.some_inj.1 hdecode).symm

def mixedBranch (keccak256 : Bytes → B256) (embedded : Node) : Node :=
  .branch fun i =>
    if i.val = 0 then some (some (List.replicate 32 9))
    else if i.val = 1 then some (some (Trie.childRef keccak256 (encodeNode embedded))) else none

theorem node_codec_exact_mixedBranch :
    (encodeNode (.leaf [1, 2] [7])).length < 32 ∧
    decodeNode (encodeNode (mixedBranch (fun _ => ⟨List.replicate 32 0, rfl⟩) (.leaf [1, 2] [7]))) =
      some (mixedBranch (fun _ => ⟨List.replicate 32 0, rfl⟩) (.leaf [1, 2] [7])) := by
  refine ⟨by decide +kernel, (node_codec_exact fun _ => ⟨List.replicate 32 0, rfl⟩).1 _ (.branch fun i c hc => ?_)⟩
  split_ifs at hc with h0 h1
  · cases hc
    exact ⟨_, rfl, .inl rfl⟩
  · cases hc
    exact ⟨_, rfl, isRef_childRef _⟩

theorem isRef_refOf (h : t ≠ .empty) : IsRef (refOf keccak256 t) := by
  obtain ⟨n, hn⟩ := Option.ne_none_iff_exists'.1 (mt (nodeOf_eq_none).1 h)
  rw [refOf, rlpOf_eq hn]
  exact isRef_childRef n

theorem resolved_nodeOf {m : Nat} (hc : t.Canon m) (hm : m ≤ 64)
    (h : nodeOf keccak256 t = some n) : Resolved n := by
  cases hc with
  | empty => cases h
  | @leaf _ k v hk =>
    cases h
    exact .leaf (by omega) v.length_lt
  | @ext m k cs hk hc =>
    cases h
    exact .ext (by omega) (isRef_refOf (by simp))
  | branch hij hi hj hcs =>
    cases h
    refine .branch fun i c hi => ?_
    split at hi
    case isTrue => cases hi
    case isFalse hne =>
      cases hi
      exact ⟨_, rfl, isRef_refOf (by simpa using hne)⟩

variable {p : Path}

theorem nodesOf_eq_none : nodesOf keccak256 t p = none ↔ t.sub p = .empty := by
  rw [nodesOf, Option.map_eq_none_iff, nodeOf_eq_none]

theorem nodesOf_of_ne (h : t.sub p ≠ .empty) :
    nodesOf keccak256 t p = some (rlpOf keccak256 (t.sub p)) := by
  obtain ⟨n, hn⟩ := Option.ne_none_iff_exists'.1 (mt (nodeOf_eq_none).1 h)
  rw [nodesOf, hn, rlpOf_eq hn]
  rfl

theorem nodesOf_congr {u : Mpt} (h : t.sub p = u.sub p) :
    nodesOf keccak256 t p = nodesOf keccak256 u p := by
  rw [nodesOf, h, nodesOf]

theorem nodesOf_empty : nodesOf keccak256 (.empty : Mpt) = fun _ => none := by
  funext p
  exact nodesOf_eq_none.2 rfl

end Encoding

section Sessions

variable (keccak256 : Bytes → B256) (base : Mpt)

/-- A node of a session at `path` is the root of a tree. A reference that is not to be recomputed is
to a child that is stored. -/
inductive Shows (path : Path) : Node → Mpt → Prop where
  | leaf {k : Path} {v : Value} : Shows path (.leaf k v.bytes) (.leaf k v)
  | ext {k : Path} {r : ChildRef} {c : Mpt}
      (hr : ∀ x, r = some x → x = refOf keccak256 c ∧ base.sub (path ++ k) = c) : Shows path (.ext k r) (.ext k c)
  | branch {children : Nibble → Option ChildRef} {cs : Nibble → Mpt}
      (hnone : ∀ i, children i = none ↔ cs i = .empty)
      (hr : ∀ i x, children i = some (some x) → x = refOf keccak256 (cs i) ∧ base.sub (path ++ [i]) = cs i) :
      Shows path (.branch children) (.branch cs)

/-- What a session over the stored tree `base` holds at one path. -/
def StandsAt (t : Trie) (path : Path) (s : Mpt) : Prop :=
  match t.dirty path with
  | none => s = base.sub path
  | some none => s = .empty
  | some (some n) => Shows keccak256 base path n s

def Stands (t : Trie) (path : Path) (s : Mpt) : Prop := ∀ p, StandsAt keccak256 base t (path ++ p) (s.sub p)

variable {keccak256 base} {t t' : Trie} {path q k : Path} {n : Node} {s c : Mpt} {m : Nat}

theorem StandsAt.congr (h : StandsAt keccak256 base t path s) (heq : t'.dirty path = t.dirty path) :
    StandsAt keccak256 base t' path s := by
  unfold StandsAt
  rw [heq]
  exact h

theorem dirty_put : (t.put path n).dirty path = some (some n) := Function.update_self ..

theorem dirty_remove : (t.remove path).dirty path = some none := Function.update_self ..

theorem StandsAt.put (h : Shows keccak256 base path n s) : StandsAt keccak256 base (t.put path n) path s := by
  unfold StandsAt
  rw [dirty_put]
  exact h

theorem standsAt_remove : StandsAt keccak256 base (t.remove path) path .empty := by
  unfold StandsAt
  rw [dirty_remove]

theorem dirty_put_of_ne (h : q ≠ path) : (t.put path n).dirty q = t.dirty q := Function.update_of_ne h _ _

theorem dirty_remove_of_ne (h : q ≠ path) : (t.remove path).dirty q = t.dirty q := Function.update_of_ne h _ _

theorem Stands.at (h : Stands keccak256 base t path s) : StandsAt keccak256 base t path s := by
  have := h []
  rwa [List.append_nil, Tree.sub_nil] at this

theorem Stands.congr (h : Stands keccak256 base t path s) (heq : ∀ p, t'.dirty (path ++ p) = t.dirty (path ++ p)) :
    Stands keccak256 base t' path s := fun p => (h p).congr (heq p)

variable {cs : Nibble → Mpt}

theorem Stands.child (h : Stands keccak256 base t path (.branch cs)) (i : Nibble) :
    Stands keccak256 base t (path ++ [i]) (cs i) := by
  intro p
  rw [List.append_assoc]
  exact h (i :: p)

theorem Stands.below (h : Stands keccak256 base t path (.ext k c)) (hk : k ≠ []) :
    Stands keccak256 base t (path ++ k) c := by
  intro p
  have := h (k ++ p)
  rwa [Tree.sub_ext_append hk, ← List.append_assoc] at this

variable {p : Path}

theorem Stands.beside (h : Stands keccak256 base t path (.ext k c)) (hp : p ≠ []) (hs : strip k p = none) :
    StandsAt keccak256 base t (path ++ p) .empty := by
  have := h p
  rwa [Tree.sub_ext hp, hs] at this

variable {v : Value}

theorem Stands.under_leaf (h : Stands keccak256 base t path (.leaf k v)) (hp : p ≠ []) :
    StandsAt keccak256 base t (path ++ p) .empty := by
  have := h p
  rwa [Tree.sub_leaf hp] at this

theorem Stands.leaf (h : StandsAt keccak256 base t path (.leaf k v))
    (hbelow : ∀ p, p ≠ [] → StandsAt keccak256 base t (path ++ p) .empty) :
    Stands keccak256 base t path (.leaf k v) := by
  intro p
  by_cases hp : p = []
  · rw [hp, List.append_nil]
    exact h
  · rw [Tree.sub_leaf hp]
    exact hbelow p hp

theorem Stands.branch (h : StandsAt keccak256 base t path (.branch cs))
    (hcs : ∀ i, Stands keccak256 base t (path ++ [i]) (cs i)) : Stands keccak256 base t path (.branch cs) := by
  intro p
  cases p with
  | nil =>
    rw [List.append_nil]
    exact h
  | cons i p =>
    have := hcs i p
    rwa [List.append_assoc] at this

theorem Stands.wrap (h : k ≠ [] → StandsAt keccak256 base t path (.ext k c))
    (hc : Stands keccak256 base t (path ++ k) c)
    (hbeside : ∀ p, p ≠ [] → strip k p = none → StandsAt keccak256 base t (path ++ p) .empty) :
    Stands keccak256 base t path (Tree.wrap k c) := by
  unfold Tree.wrap
  split
  case isTrue hk =>
    rw [hk, List.append_nil] at hc
    exact hc
  case isFalse hk =>
    intro p
    by_cases hp : p = []
    · rw [hp, List.append_nil, Tree.sub_nil]
      exact h hk
    · rw [Tree.sub_ext hp]
      cases hs : strip k p with
      | none => exact hbeside p hp hs
      | some r =>
        obtain rfl := strip_eq_some.1 hs
        rw [← List.append_assoc]
        exact hc r

theorem stands_new (source : Path → Option Bytes) : Stands keccak256 base (Trie.new source) [] base := fun _ => rfl

theorem shows_nodeOf (hbase : base.sub path = s) (hc : s.Canon m) (h : nodeOf keccak256 s = some n) :
    Shows keccak256 base path n s := by
  have hsub : ∀ r, base.sub (path ++ r) = s.sub r := by
    intro r
    rw [Tree.sub_append, hbase]
    rw [hbase]
    rintro rfl
    cases h
  cases hc with
  | empty => cases h
  | leaf hk =>
    cases h
    exact .leaf
  | @ext m k cs hk hc =>
    cases h
    refine .ext fun x hx => ?_
    cases hx
    refine ⟨rfl, ?_⟩
    have hchild := Tree.sub_ext_append (t := .branch cs) (q := []) hk
    rwa [List.append_nil, Tree.sub_nil, ← hsub] at hchild
  | @branch m cs i j hij hi hj hcs =>
    cases h
    refine .branch (fun i => by simp) fun i x hx => ?_
    split at hx
    case isTrue => cases hx
    case isFalse =>
      cases hx
      refine ⟨rfl, ?_⟩
      rw [hsub]
      exact Tree.sub_nil _

theorem get_spec (hsource : t.source = nodesOf keccak256 base) (hm : m ≤ 64) (hc : s.Canon m)
    (h : StandsAt keccak256 base t path s) :
    ∃ o, t.get path = .ok o ∧ (o = none → s = .empty) ∧ ∀ n, o = some n → Shows keccak256 base path n s := by
  unfold StandsAt at h
  unfold Trie.get
  rcases hd : t.dirty path with _ | _ | n
  · rw [hd] at h
    rw [hsource]
    cases hn : nodeOf keccak256 s with
    | none =>
      have hempty := nodeOf_eq_none.1 hn
      refine ⟨none, ?_, fun _ => hempty, by simp⟩
      rw [nodesOf_eq_none.2 (h.symm.trans hempty)]
    | some n =>
      refine ⟨some n, ?_, by simp, ?_⟩
      · rw [nodesOf, ← h, hn]
        simp only [Option.map_some, decodeNode_encodeNode (resolved_nodeOf hc hm hn).codable]
        rfl
      · rintro _ ⟨rfl⟩
        exact shows_nodeOf h.symm hc hn
  · rw [hd] at h
    exact ⟨none, rfl, fun _ => h, by simp⟩
  · rw [hd] at h
    refine ⟨some n, rfl, by simp, ?_⟩
    rintro _ ⟨rfl⟩
    exact h

theorem get_empty (hsource : t.source = nodesOf keccak256 base) (h : StandsAt keccak256 base t path .empty) :
    t.get path = .ok none := by
  obtain ⟨_ | n, hget, -, hsome⟩ := get_spec hsource (m := 0) (by omega) .empty h
  · exact hget
  · cases hsome n rfl

theorem get_some (hsource : t.source = nodesOf keccak256 base) (hm : m ≤ 64) (hc : s.Canon m) (hne : s ≠ .empty)
    (h : StandsAt keccak256 base t path s) : ∃ n, t.get path = .ok (some n) ∧ Shows keccak256 base path n s := by
  obtain ⟨_ | n, hget, hnone, hsome⟩ := get_spec hsource hm hc h
  · exact absurd (hnone rfl) hne
  · exact ⟨n, hget, hsome n rfl⟩

end Sessions

end Boltchain.Store
