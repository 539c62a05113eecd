import Boltchain.Store.TrieUpdate

namespace Boltchain.Store

open Consensus (Bytes)
open Lib Patricia

section Encode

variable (keccak256 : Bytes → B256) (base : Mpt)

/-- Encoding the tree `s` at `path` recorded its modified nodes and nothing else. -/
structure Encoded (path : Path) (s : Mpt) (st st' : Trie × NodeWrites) : Prop where
  source : st'.1.source = st.1.source
  dirty : ∀ q, ¬path <+: q → st'.1.dirty q = st.1.dirty q
  deleted : ∀ q, st'.1.dirty q = some none ↔ st.1.dirty q = some none
  writes : ∀ q, ¬path <+: q → st'.2 q = st.2 q
  written : ∀ p, (s.sub p ≠ .empty ∧ st'.2 (path ++ p) = some (some (rlpOf keccak256 (s.sub p)))) ∨
    st'.2 (path ++ p) = st.2 (path ++ p) ∧ (s.sub p = .empty ∨ s.sub p = base.sub (path ++ p))

def childOf (c : Mpt) : Option ChildRef := if c.isEmpty then none else some (some (refOf keccak256 c))

variable {keccak256 base} {path q k : Path} {s c : Mpt} {st st' : Trie × NodeWrites} {m fuel : Nat}

theorem Encoded.unchanged (h : s = .empty ∨ base.sub path = s) : Encoded keccak256 base path s st st where
  source := rfl
  dirty _ _ := rfl
  deleted _ := Iff.rfl
  writes _ _ := rfl
  written p := by
    refine .inr ⟨rfl, ?_⟩
    by_cases hs : s = .empty
    · exact .inl (by rw [hs]; rfl)
    · have hbase := h.resolve_left hs
      exact .inr (by rw [Tree.sub_append (by rwa [hbase]), hbase])

def record (st : Trie × NodeWrites) (path : Path) (node : Node) : Trie × NodeWrites :=
  (st.1.put path node, Function.update st.2 path (some (some (encodeNode node))))

variable {node : Node}

theorem record_writes_of_ne (h : q ≠ path) : (record st path node).2 q = st.2 q :=
  Function.update_of_ne h _ _

theorem record_deleted (h : ∃ n, st.1.dirty path = some (some n)) :
    (record st path node).1.dirty q = some none ↔ st.1.dirty q = some none := by
  by_cases hq : q = path
  · obtain ⟨n, hn⟩ := h
    rw [hq, hn]
    show (st.1.put path node).dirty path = _ ↔ _
    rw [dirty_put]
    simp
  · show (st.1.put path node).dirty q = _ ↔ _
    rw [dirty_put_of_ne hq]

/-- A node recorded after its children. -/
theorem Encoded.record {s : Mpt} (st' : Trie × NodeWrites) (hnode : nodeOf keccak256 s = some node)
    (hold : ∃ n, st.1.dirty path = some (some n)) (hself : st'.1.dirty path = st.1.dirty path)
    (hsource : st'.1.source = st.1.source)
    (hdirty : ∀ q, ¬path <+: q → st'.1.dirty q = st.1.dirty q)
    (hdeleted : ∀ q, st'.1.dirty q = some none ↔ st.1.dirty q = some none)
    (hwrites : ∀ q, ¬path <+: q → st'.2 q = st.2 q)
    (hwritten : ∀ p, p ≠ [] → (s.sub p ≠ .empty ∧ st'.2 (path ++ p) = some (some (rlpOf keccak256 (s.sub p)))) ∨
      st'.2 (path ++ p) = st.2 (path ++ p) ∧ (s.sub p = .empty ∨ s.sub p = base.sub (path ++ p))) :
    Encoded keccak256 base path s st (Boltchain.Store.record st' path node) where
  source := hsource
  dirty q hq := by
    have hne : q ≠ path := by rintro rfl; exact hq List.prefix_rfl
    exact (dirty_put_of_ne hne).trans (hdirty q hq)
  deleted q := by
    rw [record_deleted (by rwa [hself])]
    exact hdeleted q
  writes q hq := by
    have hne : q ≠ path := by rintro rfl; exact hq List.prefix_rfl
    rw [record_writes_of_ne hne]
    exact hwrites q hq
  written p := by
    by_cases hp : p = []
    · subst hp
      refine .inl ⟨?_, ?_⟩
      · rw [Tree.sub_nil]
        rintro rfl
        cases hnode
      · rw [Tree.sub_nil, List.append_nil, rlpOf_eq hnode]
        exact Function.update_self ..
    · rw [record_writes_of_ne (by simpa using hp)]
      exact hwritten p hp

variable (keccak256 base) in
/-- What encoding needs to know of one child of a branch. -/
structure ChildReady (st : Trie × NodeWrites) (path : Path) (child : Option ChildRef) (i : Nibble) (c : Mpt) : Prop where
  none_iff : child = none ↔ c = .empty
  ref : ∀ x, child = some (some x) → x = refOf keccak256 c ∧ base.sub (path ++ [i]) = c
  stands : Stands keccak256 base st.1 (path ++ [i]) c

variable {children : Nibble → Option ChildRef}
  {encode : Path → Trie × NodeWrites → Except TrieError (Bytes × Trie × NodeWrites)}

theorem resolveChild_spec {i : Nibble} (hready : ChildReady keccak256 base st path (children i) i c)
    (hencode : c ≠ .empty → ∃ st', encode (path ++ [i]) st = .ok (rlpOf keccak256 c, st') ∧
      Encoded keccak256 base (path ++ [i]) c st st') :
    ∃ st', Trie.resolveChild keccak256 encode path (children, st) i =
      .ok (Function.update children i (childOf keccak256 c), st') ∧ Encoded keccak256 base (path ++ [i]) c st st' := by
  unfold Trie.resolveChild
  rcases hi : children i with _ | _ | x
  · have hempty := hready.none_iff.1 hi
    refine ⟨st, ?_, .unchanged (.inl hempty)⟩
    rw [hempty, show childOf keccak256 .empty = children i from hi.symm, Function.update_eq_self]
    simp only [hi]
  · have hne : c ≠ .empty := fun h => by
      rw [hready.none_iff.2 h] at hi
      cases hi
    obtain ⟨st', hrun, henc⟩ := hencode hne
    refine ⟨st', ?_, henc⟩
    rw [childOf, if_neg (by simpa using hne)]
    simp only [hi, hrun, bind, Except.bind]
    rfl
  · obtain ⟨rfl, hbase⟩ := hready.ref x hi
    have hne : c ≠ .empty := fun h => by
      rw [hready.none_iff.2 h] at hi
      cases hi
    refine ⟨st, ?_, .unchanged (.inr hbase)⟩
    rw [show childOf keccak256 c = children i by rw [hi, childOf, if_neg (by simpa using hne)],
      Function.update_eq_self]
    simp only [hi]

/-- The loop over the children of a branch. -/
theorem foldlM_resolveChild
    {cs : Nibble → Mpt} {source : Path → Option Bytes}
    (hencode : ∀ i st, cs i ≠ .empty → st.1.source = source → Stands keccak256 base st.1 (path ++ [i]) (cs i) →
      ∃ st', encode (path ++ [i]) st = .ok (rlpOf keccak256 (cs i), st') ∧
        Encoded keccak256 base (path ++ [i]) (cs i) st st')
    (l : List Nibble) (hl : l.Nodup) (hsource : st.1.source = source)
    (hready : ∀ i ∈ l, ChildReady keccak256 base st path (children i) i (cs i)) :
    ∃ children' st', l.foldlM (Trie.resolveChild keccak256 encode path) (children, st) = .ok (children', st') ∧
      (∀ i, children' i = if i ∈ l then childOf keccak256 (cs i) else children i) ∧
      st'.1.source = source ∧
      (∀ q, (∀ i ∈ l, ¬path ++ [i] <+: q) → st'.1.dirty q = st.1.dirty q ∧ st'.2 q = st.2 q) ∧
      (∀ q, st'.1.dirty q = some none ↔ st.1.dirty q = some none) ∧
      ∀ i ∈ l, ∀ p, (((cs i).sub p ≠ .empty ∧ st'.2 (path ++ [i] ++ p) = some (some (rlpOf keccak256 ((cs i).sub p)))) ∨
        st'.2 (path ++ [i] ++ p) = st.2 (path ++ [i] ++ p) ∧
          ((cs i).sub p = .empty ∨ (cs i).sub p = base.sub (path ++ [i] ++ p))) := by
  induction l generalizing children st with
  | nil => exact ⟨children, st, rfl, by simp, hsource, fun q _ => ⟨rfl, rfl⟩, fun q => Iff.rfl, by simp⟩
  | cons i l ih =>
    obtain ⟨hil, hl⟩ := List.nodup_cons.1 hl
    have hi := hready i List.mem_cons_self
    obtain ⟨st₁, hstep, henc⟩ := resolveChild_spec hi fun hne => hencode i st hne hsource hi.stands
    have hother : ∀ {j}, j ∈ l → ∀ p, ¬path ++ [i] <+: path ++ [j] ++ p := by
      intro j hj p
      have hij : i ≠ j := by rintro rfl; exact hil hj
      simp [hij]
    have hready₁ : ∀ j ∈ l, ChildReady keccak256 base st₁ path (Function.update children i (childOf keccak256 (cs i)) j) j
        (cs j) := by
      intro j hj
      have hji : j ≠ i := by rintro rfl; exact hil hj
      have hj' := hready j (List.mem_cons_of_mem i hj)
      rw [Function.update_of_ne hji]
      exact ⟨hj'.none_iff, hj'.ref, hj'.stands.congr fun p => henc.dirty _ (hother hj p)⟩
    obtain ⟨children', st', hrun, hchildren, hsource', hframe, hdeleted, hwritten⟩ :=
      ih hl (henc.source.trans hsource) hready₁
    refine ⟨children', st', ?_, fun j => ?_, hsource', fun q hq => ?_, fun q => (hdeleted q).trans (henc.deleted q),
      fun j hj p => ?_⟩
    · rw [List.foldlM_cons, hstep]
      exact hrun
    · rw [hchildren j]
      by_cases hji : j = i
      · subst hji
        simp [hil]
      · simp [hji]
    · obtain ⟨hd, hw⟩ := hframe q fun j hj => hq j (List.mem_cons_of_mem i hj)
      have hqi := hq i List.mem_cons_self
      exact ⟨hd.trans (henc.dirty q hqi), hw.trans (henc.writes q hqi)⟩
    · by_cases hji : j = i
      · subst hji
        have hkeep : st'.2 (path ++ [j] ++ p) = st₁.2 (path ++ [j] ++ p) :=
          (hframe _ fun x hx => by
            have hxj : x ≠ j := by rintro rfl; exact hil hx
            simp [hxj]).2
        rw [hkeep]
        exact henc.written p
      · have hjl : j ∈ l := (List.mem_cons.1 hj).resolve_left hji
        rw [← henc.writes _ (hother hjl p)]
        exact hwritten j hjl p

variable {t : Trie} {w : NodeWrites}

theorem encodeAt_clean (hsource : t.source = nodesOf keccak256 base) (hne : s ≠ .empty)
    (hs : Stands keccak256 base t path s) (hclean : t.dirty path = none) :
    ∃ st', Trie.encodeAt keccak256 (fuel + 1) path (t, w) = .ok (rlpOf keccak256 s, st') ∧
      Encoded keccak256 base path s (t, w) st' := by
  have hbase := hs.at
  unfold StandsAt at hbase
  rw [hclean] at hbase
  refine ⟨(t, w), ?_, .unchanged (.inr hbase.symm)⟩
  simp only [Trie.encodeAt, hclean, hsource]
  rw [nodesOf_of_ne (by rwa [← hbase]), ← hbase]
  rfl

theorem StandsAt.dirty (h : StandsAt keccak256 base t path s) (hne : s ≠ .empty) :
    t.dirty path = none ∨ ∃ n, t.dirty path = some (some n) ∧ Shows keccak256 base path n s := by
  unfold StandsAt at h
  rcases hd : t.dirty path with _ | _ | n
  · exact .inl rfl
  · rw [hd] at h
    exact absurd h hne
  · rw [hd] at h
    exact .inr ⟨n, rfl, h⟩

theorem encodeAt_spec (hsource : t.source = nodesOf keccak256 base)
    (hc : s.Canon m) (hne : s ≠ .empty) (hs : Stands keccak256 base t path s) (hfuel : m < fuel) :
    ∃ st', Trie.encodeAt keccak256 fuel path (t, w) = .ok (rlpOf keccak256 s, st') ∧
      Encoded keccak256 base path s (t, w) st' := by
  induction hc generalizing t w path fuel with
  | empty => exact absurd rfl hne
  | @leaf m k v hk =>
    obtain ⟨fuel, rfl⟩ : ∃ f, fuel = f + 1 := ⟨fuel - 1, by omega⟩
    obtain hclean | ⟨n, hd, hn⟩ := hs.at.dirty hne
    · exact encodeAt_clean hsource hne hs hclean
    · cases hn
      refine ⟨_, ?_, Encoded.record (t, w) rfl ⟨_, hd⟩ rfl rfl (fun _ _ => rfl) (fun _ => Iff.rfl)
        (fun _ _ => rfl) fun p hp => .inr ⟨rfl, .inl (Tree.sub_leaf hp)⟩⟩
      simp only [Trie.encodeAt, hd, Trie.resolve, bind, Except.bind]
      rfl
  | @ext m k cs hk hcs ih =>
    obtain ⟨fuel, rfl⟩ : ∃ f, fuel = f + 1 := ⟨fuel - 1, by omega⟩
    obtain hclean | ⟨n, hd, hn⟩ := hs.at.dirty hne
    · exact encodeAt_clean hsource hne hs hclean
    · have hlen := List.length_pos_of_ne_nil hk
      -- the child, encoded or known
      have hchild : ∃ st', (∃ r, n = .ext k r ∧ Trie.resolve keccak256 (Trie.encodeAt keccak256 fuel) path n (t, w) =
          .ok (.ext k (some (refOf keccak256 (.branch cs))), st')) ∧
          Encoded keccak256 base (path ++ k) (.branch cs) (t, w) st' := by
        cases hn with
        | @ext _ r _ hr =>
          cases r with
          | none =>
            obtain ⟨st', hrun, henc⟩ := ih (t := t) (w := w) hsource (by simp) (hs.below hk) (by omega : _ < fuel)
            refine ⟨st', ⟨none, rfl, ?_⟩, henc⟩
            simp only [Trie.resolve, hrun, bind, Except.bind]
            rfl
          | some x =>
            obtain ⟨rfl, hbase⟩ := hr x rfl
            exact ⟨(t, w), ⟨_, rfl, rfl⟩, .unchanged (.inr hbase)⟩
      obtain ⟨st', ⟨r, rfl, hrun⟩, henc⟩ := hchild
      have hout : ∀ {q}, ¬path <+: q → ¬path ++ k <+: q := fun hq h => hq ((List.prefix_append path k).trans h)
      refine ⟨_, ?_, Encoded.record st' rfl ⟨_, hd⟩ (henc.dirty _ (not_append_isPrefix hk)) henc.source
        (fun q hq => henc.dirty q (hout hq)) henc.deleted (fun q hq => henc.writes q (hout hq)) fun p hp => ?_⟩
      · simp only [Trie.encodeAt, hd, hrun, bind, Except.bind]
        rfl
      · rw [Tree.sub_ext hp]
        cases hsp : strip k p with
        | none =>
          refine .inr ⟨henc.writes _ ?_, .inl rfl⟩
          rwa [List.prefix_append_right_inj, ← strip_eq_none]
        | some r =>
          obtain rfl := strip_eq_some.1 hsp
          have hr := henc.written r
          rwa [List.append_assoc] at hr
  | @branch m cs i j hij hi hj hcs ih =>
    obtain ⟨fuel, rfl⟩ : ∃ f, fuel = f + 1 := ⟨fuel - 1, by omega⟩
    obtain hclean | ⟨n, hd, hn⟩ := hs.at.dirty hne
    · exact encodeAt_clean hsource hne hs hclean
    · cases hn with
      | @branch children _ hnone hr =>
        have hencode : ∀ i st, cs i ≠ .empty → st.1.source = nodesOf keccak256 base →
            Stands keccak256 base st.1 (path ++ [i]) (cs i) →
            ∃ st', Trie.encodeAt keccak256 fuel (path ++ [i]) st = .ok (rlpOf keccak256 (cs i), st') ∧
              Encoded keccak256 base (path ++ [i]) (cs i) st st' :=
          fun i st hne hsource hs => ih i (t := st.1) (w := st.2) hsource hne hs (by omega)
        have hready : ∀ i ∈ List.finRange 16, ChildReady keccak256 base (t, w) path (children i) i (cs i) :=
          fun i _ => ⟨hnone i, hr i, hs.child i⟩
        obtain ⟨children', st', hrun, hchildren, hsource', hframe, hdeleted, hwritten⟩ :=
          foldlM_resolveChild hencode (List.finRange 16) (List.nodup_finRange 16)
            (show (t, w).1.source = _ from hsource) hready
        have hresolved : children' = fun i => childOf keccak256 (cs i) := by
          funext i
          rw [hchildren, if_pos (List.mem_finRange i)]
        subst hresolved
        have hout : ∀ {q}, ¬path <+: q → ∀ i ∈ List.finRange 16, ¬path ++ [i] <+: q :=
          fun hq i _ h => hq ((List.prefix_append path [i]).trans h)
        refine ⟨_, ?_, Encoded.record st' rfl ⟨_, hd⟩
          (hframe path fun i _ => not_append_isPrefix (by simp)).1 (hsource'.trans hsource.symm)
          (fun q hq => (hframe q (hout hq)).1) hdeleted (fun q hq => (hframe q (hout hq)).2) fun p hp => ?_⟩
        · simp only [Trie.encodeAt, hd, Trie.resolve, hrun, bind, Except.bind]
          rfl
        · cases p with
          | nil => exact absurd rfl hp
          | cons i p =>
            have hi := hwritten i (List.mem_finRange i) p
            rwa [List.append_assoc] at hi

end Encode

section Commit

variable {keccak256 : Bytes → B256} {base s : Mpt} {t : Trie}

theorem unwritten_spec {p : Path} (hs : StandsAt keccak256 base t p (s.sub p))
    (h : s.sub p = .empty ∨ s.sub p = base.sub p) :
    (if t.dirty p = some none then some none else none).getD (nodesOf keccak256 base p) = nodesOf keccak256 s p := by
  unfold StandsAt at hs
  rcases hd : t.dirty p with _ | _ | n
  · rw [hd] at hs
    exact nodesOf_congr hs.symm
  · rw [hd] at hs
    exact (nodesOf_eq_none.2 hs).symm
  · rw [hd] at hs
    rcases h with h | h
    · rw [h] at hs
      cases hs
    · exact nodesOf_congr h.symm

theorem commit_spec (hsource : t.source = nodesOf keccak256 base) (hc : s.Canon 64)
    (hs : Stands keccak256 base t [] s) :
    ∃ writes, t.commit keccak256 = .ok (rootOf keccak256 s, writes) ∧
      applyWrites (nodesOf keccak256 base) writes = nodesOf keccak256 s := by
  by_cases hne : s = .empty
  · subst hne
    have hroot : t.root keccak256 = .ok (rootOf keccak256 .empty, t, fun _ => none) := by
      simp only [Trie.root, get_empty hsource hs.at, bind, Except.bind]
      rfl
    refine ⟨_, by rw [Trie.commit, hroot]; rfl, funext fun p => ?_⟩
    exact unwritten_spec (hs p) (.inl rfl)
  · obtain ⟨n, hget, -⟩ := get_some hsource le_rfl hc hne hs.at
    obtain ⟨st, hrun, henc⟩ := encodeAt_spec (w := fun _ => none) hsource hc hne hs (by omega : 64 < 65)
    have hroot : t.root keccak256 = .ok (rootOf keccak256 s, st) := by
      simp only [Trie.root, hget, hrun, bind, Except.bind]
      rfl
    refine ⟨_, by rw [Trie.commit, hroot]; rfl, funext fun p => ?_⟩
    rcases henc.written p with ⟨hp, hw⟩ | ⟨hw, hp⟩
    · rw [List.nil_append] at hw
      rw [nodesOf_of_ne hp]
      simp [applyWrites, hw]
    · rw [List.nil_append] at hw hp
      have h := unwritten_spec (hs p) hp
      rw [List.nil_append] at h
      simp only [applyWrites, hw, Option.none_or, henc.deleted p]
      exact h

end Commit

end Boltchain.Store
