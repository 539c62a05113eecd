import Boltchain.Store.TrieTree

namespace Boltchain.Store

open Consensus (Bytes)
open Lib Patricia

/-- A session that changed nothing but nodes from `path` on. -/
structure Framed (path : Path) (t t' : Trie) : Prop where
  source : t'.source = t.source
  dirty : ∀ q, ¬path <+: q → t'.dirty q = t.dirty q

section Frames

variable {t t' t'' : Trie} {path q k : Path} {n : Node}

theorem Framed.rfl : Framed path t t := ⟨Eq.refl _, fun _ _ => Eq.refl _⟩

theorem Framed.trans (h : Framed path t t') (h' : Framed path t' t'') : Framed path t t'' :=
  ⟨h'.source.trans h.source, fun q hq => (h'.dirty q hq).trans (h.dirty q hq)⟩

theorem Framed.mono (h : Framed (path ++ k) t t') : Framed path t t' :=
  ⟨h.source, fun q hq => h.dirty q fun hpre => hq ((List.prefix_append path k).trans hpre)⟩

theorem Framed.put (h : Framed path t t') (hq : path <+: q) : Framed path t (t'.put q n) :=
  ⟨h.source, fun r hr => (dirty_put_of_ne (by rintro rfl; exact hr hq)).trans (h.dirty r hr)⟩

theorem Framed.remove (h : Framed path t t') (hq : path <+: q) : Framed path t (t'.remove q) :=
  ⟨h.source, fun r hr => (dirty_remove_of_ne (by rintro rfl; exact hr hq)).trans (h.dirty r hr)⟩

theorem Framed.putExt (h : Framed path t t') (hq : path <+: q) : Framed path t (t'.putExt q k) := by
  unfold Trie.putExt
  split
  case isTrue => exact h
  case isFalse => exact h.put hq

theorem dirty_putExt (h : k ≠ []) : (t.putExt path k).dirty path = some (some (.ext k none)) := by
  rw [Trie.putExt, if_neg h, dirty_put]

theorem dirty_putExt_of_ne (h : k ≠ [] → q ≠ path) : (t.putExt path k).dirty q = t.dirty q := by
  unfold Trie.putExt
  split
  case isTrue => exact Eq.refl _
  case isFalse hk => exact dirty_put_of_ne (h hk)

end Frames

theorem not_append_isPrefix {path k : Path} (hk : k ≠ []) : ¬path ++ k <+: path := by
  intro h
  have hlen := h.length_le
  rw [List.length_append] at hlen
  exact hk (List.length_eq_zero_iff.1 (by omega))

section CommonPrefix

theorem commonPrefix_append (s x y : Path) : commonPrefix (s ++ x) (s ++ y) = s.length + commonPrefix x y := by
  induction s with
  | nil => simp
  | cons a s ih =>
    have hcons : commonPrefix (a :: (s ++ x)) (a :: (s ++ y)) = commonPrefix (s ++ x) (s ++ y) + 1 := by
      simp [commonPrefix]
    rw [List.cons_append, List.cons_append, hcons, ih, List.length_cons]
    omega

theorem commonPrefix_parts {s x y : Path} {a b : Nibble} (h : a ≠ b) :
    commonPrefix (s ++ a :: x) (s ++ b :: y) = s.length := by
  rw [commonPrefix_append]
  simp [commonPrefix, h]

theorem commonPrefix_whole (k y : Path) : commonPrefix k (k ++ y) = k.length := by
  have h := commonPrefix_append k [] y
  rw [List.append_nil] at h
  rw [h]
  simp [commonPrefix]

end CommonPrefix

section Insert

variable {keccak256 : Bytes → B256} {base s u w : Mpt} {t : Trie} {path rest l k : Path} {a b : Nibble} {v : Value}
  {m fuel : Nat}

theorem shows_twoChildren (hab : a ≠ b) (hu : u ≠ .empty) (hw : w ≠ .empty) :
    Shows keccak256 base path (Trie.twoChildren a b)
      (.branch (Function.update (Function.update (fun _ => .empty) a u) b w)) := by
  refine .branch (fun i => ?_) fun i x hx => ?_
  · by_cases hb : i = b
    · subst hb
      simp [hw]
    · by_cases ha : i = a
      · subst ha
        simp [hb, hu]
      · simp [hb, ha]
  · by_cases hb : i = b
    · subst hb
      simp at hx
    · by_cases ha : i = a
      · subst ha
        simp [hb] at hx
      · simp [hb, ha] at hx

/-- A new branch where two keys part: the old subtree stands under `a` already, the new leaf comes under `b`. -/
theorem Stands.fork {y : Path} (hab : a ≠ b) (hu : u ≠ .empty) (ha : Stands keccak256 base t (path ++ l ++ [a]) u)
    (hbeside : ∀ p, p ≠ [] → strip (l ++ [a]) p = none → StandsAt keccak256 base t (path ++ p) .empty) :
    Stands keccak256 base
      (((t.put (path ++ l ++ [b]) (.leaf y v.bytes)).put (path ++ l) (Trie.twoChildren a b)).putExt path l) path
      (Tree.fork l a u b (.leaf y v)) := by
  have hkeep : ∀ p, p ≠ [] → p ≠ l → p ≠ l ++ [b] →
      (((t.put (path ++ l ++ [b]) (.leaf y v.bytes)).put (path ++ l) (Trie.twoChildren a b)).putExt path l).dirty
        (path ++ p) = t.dirty (path ++ p) := by
    intro p hp hl hb
    rw [dirty_putExt_of_ne (by simp [hp]), dirty_put_of_ne (by simpa using hl), dirty_put_of_ne (by simpa using hb)]
  have hempty : ∀ i p, i ≠ a → StandsAt keccak256 base t (path ++ (l ++ i :: p)) .empty := by
    intro i p hia
    refine hbeside (l ++ i :: p) (by simp) ?_
    rw [strip_append_left, strip_append, Option.bind_some]
    simp [strip, Ne.symm hia]
  refine Stands.wrap (fun hl => ?_) (Stands.branch ?_ fun i => ?_) fun p hp hs => ?_
  · unfold StandsAt
    rw [dirty_putExt hl]
    exact .ext (by simp)
  · unfold StandsAt
    rw [dirty_putExt_of_ne (by simp), dirty_put]
    exact shows_twoChildren hab hu (by simp)
  · by_cases hib : i = b
    · subst hib
      rw [Function.update_self]
      refine Stands.leaf ?_ fun p hp => ?_
      · refine StandsAt.congr (t := t.put (path ++ l ++ [i]) (.leaf y v.bytes)) (.put .leaf) ?_
        rw [dirty_putExt_of_ne (by simp), dirty_put_of_ne (by simp)]
      · have hnew := (hempty i p hab.symm).congr (hkeep (l ++ i :: p) (by simp) (by simp) (by simp [hp]))
        simpa using hnew
    · rw [Function.update_of_ne hib]
      by_cases hia : i = a
      · subst hia
        rw [Function.update_self]
        refine ha.congr fun p => ?_
        have hold := hkeep (l ++ i :: p) (by simp) (by simp) (by simp [hib])
        simpa using hold
      · rw [Function.update_of_ne hia]
        intro p
        have hold := (hempty i p hia).congr (hkeep (l ++ i :: p) (by simp) (by simp) (by simp [hib]))
        simpa using hold
  · have hout : ∀ c, strip (l ++ [c]) p = none := by
      intro c
      rw [strip_append_left, hs]
      rfl
    refine (hbeside p hp (hout a)).congr (hkeep p hp ?_ ?_)
    · rintro rfl
      rw [strip_self] at hs
      cases hs
    · rintro rfl
      have hself := hout b
      rw [strip_self] at hself
      cases hself

theorem splitLeaf_spec {x y : Path} {w v : Value} (hab : a ≠ b)
    (hs : Stands keccak256 base t path (.leaf (l ++ a :: x) w)) :
    ∃ t', t.splitLeaf path (l ++ a :: x) w.bytes (l ++ b :: y) v.bytes = .ok t' ∧ Framed path t t' ∧
      Stands keccak256 base t' path (Tree.fork l a (.leaf x w) b (.leaf y v)) := by
  simp only [Trie.splitLeaf, commonPrefix_parts hab, List.drop_left, List.take_left]
  refine ⟨_, rfl, ?_, Stands.fork hab (by simp) (Stands.leaf (.put .leaf) fun p hp => ?_) fun p hp hpa => ?_⟩
  · exact (((Framed.rfl.put (by simp)).put (by simp)).put (by simp)).putExt List.prefix_rfl
  · have hbelow := hs.under_leaf (p := l ++ a :: p) (by simp)
    refine StandsAt.congr (t := t) (by simpa using hbelow) (dirty_put_of_ne (by simp [hp]))
  · refine (hs.under_leaf hp).congr (dirty_put_of_ne ?_)
    rintro heq
    obtain rfl : p = l ++ [a] := by simpa using heq
    rw [strip_self] at hpa
    cases hpa

theorem splitExt_spec {x y : Path} {v : Value} (hab : a ≠ b) (hu : u ≠ .empty)
    (hs : Stands keccak256 base t path (.ext (l ++ a :: x) u)) :
    ∃ t', t.splitExt path (l ++ a :: x) (l ++ b :: y) v.bytes = .ok t' ∧ Framed path t t' ∧
      Stands keccak256 base t' path (Tree.fork l a (Tree.wrap x u) b (.leaf y v)) := by
  simp only [Trie.splitExt, commonPrefix_parts hab, List.drop_left, List.take_left]
  have hbelow : Stands keccak256 base t (path ++ (l ++ a :: x)) u := hs.below (by simp)
  -- the old child stays where it was, under what is left of the key
  have hold : Stands keccak256 base (t.putExt (path ++ l ++ [a]) x) (path ++ l ++ [a]) (Tree.wrap x u) := by
    refine Stands.wrap (fun hx => ?_) ?_ fun p hp hsp => ?_
    · unfold StandsAt
      rw [dirty_putExt hx]
      exact .ext (by simp)
    · refine Stands.congr (t := t) (by simpa using hbelow) fun p => dirty_putExt_of_ne (by simp +contextual)
    · have hbeside := hs.beside (p := l ++ a :: p) (by simp) (by
        rw [strip_append_left, strip_append, Option.bind_some]
        simpa [strip] using hsp)
      refine StandsAt.congr (t := t) (by simpa using hbeside) (dirty_putExt_of_ne (by simp [hp]))
  refine ⟨_, rfl, ?_, Stands.fork hab (Tree.wrap_ne_empty hu) hold fun p hp hpa => ?_⟩
  · exact (((Framed.rfl.putExt (by simp)).put (by simp)).put (by simp)).putExt List.prefix_rfl
  · refine (hs.beside hp ?_).congr (dirty_putExt_of_ne fun _ heq => ?_)
    · rw [show l ++ a :: x = l ++ [a] ++ x by simp, strip_append_left, hpa]
      rfl
    · obtain rfl : p = l ++ [a] := by simpa using heq
      rw [strip_self] at hpa
      cases hpa

theorem insertAt_spec (hsource : t.source = nodesOf keccak256 base) (hm : m ≤ 64) (hc : s.Canon m)
    (hs : Stands keccak256 base t path s) (hrest : rest.length = m) (hfuel : m < fuel) (v : Value) :
    ∃ t', t.insertAt fuel path rest v.bytes = .ok t' ∧ Framed path t t' ∧
      Stands keccak256 base t' path (s.insert rest v) := by
  induction hc generalizing t path rest fuel with
  | empty =>
    obtain ⟨fuel, rfl⟩ : ∃ f, fuel = f + 1 := ⟨fuel - 1, by omega⟩
    refine ⟨t.put path (.leaf rest v.bytes), ?_, Framed.rfl.put List.prefix_rfl, ?_⟩
    · simp only [Trie.insertAt, get_empty hsource hs.at, bind, Except.bind]
    · refine Stands.leaf (.put .leaf) fun p hp => (hs p).congr (dirty_put_of_ne (by simpa using hp))
  | @leaf m k w hk =>
    obtain ⟨fuel, rfl⟩ : ∃ f, fuel = f + 1 := ⟨fuel - 1, by omega⟩
    obtain ⟨n, hget, hn⟩ := get_some hsource hm (.leaf hk) (by simp) hs.at
    cases hn
    simp only [Trie.insertAt, hget, bind, Except.bind, Tree.insert]
    by_cases hkey : rest = k
    · rw [if_pos hkey.symm, if_pos hkey]
      refine ⟨_, rfl, Framed.rfl.put List.prefix_rfl, ?_⟩
      exact Stands.leaf (.put .leaf) fun p hp => (hs.under_leaf hp).congr (dirty_put_of_ne (by simpa using hp))
    · rw [if_neg (Ne.symm hkey), if_neg hkey]
      obtain ⟨p', -, heq⟩ | ⟨l, a, x, b, y, hsplit, rfl, rfl, hab⟩ := split_cases (hk.trans hrest.symm).le
      · have hnil : p' = [] := by
          have := congrArg List.length heq
          rw [List.length_append] at this
          exact List.length_eq_zero_iff.1 (by omega)
        rw [hnil, List.append_nil] at heq
        exact absurd heq hkey
      · rw [hsplit]
        exact splitLeaf_spec hab hs
  | @ext m k cs hk hcs ih =>
    obtain ⟨fuel, rfl⟩ : ∃ f, fuel = f + 1 := ⟨fuel - 1, by omega⟩
    obtain ⟨n, hget, hn⟩ := get_some hsource hm (.ext hk hcs) (by simp) hs.at
    cases hn with
    | ext hr =>
      simp only [Trie.insertAt, hget, bind, Except.bind, Tree.insert]
      obtain ⟨p', hsplit, rfl⟩ | ⟨l, a, x, b, y, hsplit, rfl, rfl, hab⟩ := split_cases (k := k) (p := rest) (by omega)
      · have hlen := List.length_pos_of_ne_nil hk
        rw [if_pos (commonPrefix_whole k p'), List.drop_left, hsplit]
        rw [List.length_append] at hrest
        obtain ⟨t', hrun, hframe, hs'⟩ := ih (t := t.put path (.ext k none)) hsource (by omega)
          ((hs.below hk).congr fun p => dirty_put_of_ne (by simp [hk])) (by omega : p'.length = _)
          (by omega : _ < fuel)
        refine ⟨t', hrun, (Framed.rfl.put List.prefix_rfl).trans hframe.mono, ?_⟩
        show Stands keccak256 base t' path (.ext k _)
        rw [← Tree.wrap_of_ne hk]
        refine Stands.wrap (fun _ => ?_) hs' fun p hp hsp => ?_
        · exact (StandsAt.put (.ext (by simp))).congr (hframe.dirty _ (not_append_isPrefix hk))
        · refine (hs.beside hp hsp).congr ?_
          rw [hframe.dirty _ (by rwa [List.prefix_append_right_inj, ← strip_eq_none]),
            dirty_put_of_ne (by simpa using hp)]
      · rw [if_neg (by rw [commonPrefix_parts hab]; simp), hsplit]
        exact splitExt_spec hab (by simp) hs
  | @branch m cs i j hij hi hj hcs ih =>
    obtain ⟨fuel, rfl⟩ : ∃ f, fuel = f + 1 := ⟨fuel - 1, by omega⟩
    obtain ⟨n, hget, hn⟩ := get_some hsource hm (.branch hij hi hj hcs) (by simp) hs.at
    cases hn with
    | @branch children _ hnone hr =>
      cases rest with
      | nil => simp at hrest
      | cons c rest =>
        simp only [Trie.insertAt, hget, bind, Except.bind, Tree.insert]
        obtain ⟨t', hrun, hframe, hs'⟩ := ih c (t := t.put path (.branch (Function.update children c (some none))))
          hsource (by omega)
          ((hs.child c).congr fun p => dirty_put_of_ne (by simp)) (by simpa using hrest : rest.length = _)
          (by omega : _ < fuel)
        refine ⟨t', hrun, (Framed.rfl.put List.prefix_rfl).trans hframe.mono, ?_⟩
        refine Stands.branch ?_ fun x => ?_
        · refine (StandsAt.put (.branch (fun x => ?_) fun x r hx => ?_)).congr
            (hframe.dirty _ (not_append_isPrefix (by simp)))
          · by_cases hxc : x = c
            · subst hxc
              simp [Tree.insert_ne_empty]
            · rw [Function.update_of_ne hxc, Function.update_of_ne hxc]
              exact hnone x
          · by_cases hxc : x = c
            · subst hxc
              simp at hx
            · rw [Function.update_of_ne hxc] at hx ⊢
              exact hr x r hx
        · by_cases hxc : x = c
          · subst hxc
            rw [Function.update_self]
            exact hs'
          · rw [Function.update_of_ne hxc]
            refine (hs.child x).congr fun p => ?_
            rw [hframe.dirty _ (by simp [Ne.symm hxc]), dirty_put_of_ne (by simp)]

end Insert

section Remove

variable {keccak256 : Bytes → B256} {base s u : Mpt} {t : Trie} {path rest k : Path} {n : Node} {m fuel : Nat}

/-- The node left alone below a path moves up to its start. -/
theorem mergeExt_spec (hk : k ≠ []) (hc : u.Canon m) (hu : Stands keccak256 base t (path ++ k) u)
    (hn : Shows keccak256 base (path ++ k) n u)
    (hbeside : ∀ p, p ≠ [] → strip k p = none → StandsAt keccak256 base t (path ++ p) .empty) :
    ∃ t' n', t.mergeExt path k (path ++ k) (some n) = .ok (t', n') ∧ Framed path t (t'.put path n') ∧
      Stands keccak256 base (t'.put path n') path (Tree.join k u) := by
  have hself : ∀ {p : Path}, p ≠ [] → path ++ p ≠ path := fun hp => by simpa using hp
  have hne : ∀ {p : Path}, strip k p = none → path ++ p ≠ path ++ k := by
    intro p hp heq
    rw [List.append_cancel_left heq, strip_self] at hp
    cases hp
  cases hn with
  | @leaf k' v =>
    refine ⟨_, _, rfl, (Framed.rfl.remove (by simp)).put List.prefix_rfl, ?_⟩
    refine Stands.leaf (.put .leaf) fun p hp => ?_
    cases hs : strip k p with
    | none =>
      refine (hbeside p hp hs).congr ?_
      rw [dirty_put_of_ne (hself hp), dirty_remove_of_ne (hne hs)]
    | some r =>
      obtain rfl := strip_eq_some.1 hs
      by_cases hr : r = []
      · rw [hr, List.append_nil]
        exact standsAt_remove.congr (dirty_put_of_ne (hself hk))
      · have hbelow := hu.under_leaf hr
        rw [List.append_assoc] at hbelow
        refine hbelow.congr ?_
        rw [dirty_put_of_ne (hself hp), dirty_remove_of_ne (by simpa using hr)]
  | @ext k' r c hr =>
    refine ⟨_, _, rfl, (Framed.rfl.remove (by simp)).put List.prefix_rfl, ?_⟩
    have hk' : k' ≠ [] := by
      cases hc
      assumption
    show Stands keccak256 base _ path (.ext (k ++ k') c)
    rw [← Tree.wrap_of_ne (by simp [hk])]
    refine Stands.wrap (fun _ => .put (.ext (by simp))) ?_ fun p hp hs => ?_
    · rw [← List.append_assoc]
      refine (hu.below hk').congr fun p => ?_
      rw [dirty_put_of_ne (by simp [hk]), dirty_remove_of_ne (by simp [hk'])]
    · rw [strip_append_left] at hs
      cases hsk : strip k p with
      | none =>
        refine (hbeside p hp hsk).congr ?_
        rw [dirty_put_of_ne (hself hp), dirty_remove_of_ne (hne hsk)]
      | some r =>
        obtain rfl := strip_eq_some.1 hsk
        rw [hsk, Option.bind_some] at hs
        by_cases hr : r = []
        · rw [hr, List.append_nil]
          exact standsAt_remove.congr (dirty_put_of_ne (hself hk))
        · have hbelow := hu.beside hr hs
          rw [List.append_assoc] at hbelow
          refine hbelow.congr ?_
          rw [dirty_put_of_ne (hself hp), dirty_remove_of_ne (by simpa using hr)]
  | @branch children cs hnone hr =>
    refine ⟨_, _, rfl, Framed.rfl.put List.prefix_rfl, ?_⟩
    show Stands keccak256 base _ path (.ext k _)
    rw [← Tree.wrap_of_ne hk]
    refine Stands.wrap (fun _ => .put (.ext (by simp))) (hu.congr fun p => ?_) fun p hp hs => ?_
    · rw [List.append_assoc]
      exact dirty_put_of_ne (hself (by simp [hk]))
    · exact (hbeside p hp hs).congr (dirty_put_of_ne (hself hp))

theorem pullUp_eq (t : Trie) (path : Path) (i : Nibble) (n : Node) :
    t.mergeExt path [i] (path ++ [i]) (some n) = .ok (t.pullUp path i n) := by
  cases n <;> rfl

/-- A branch after a change to its children. -/
theorem repairBranch_spec {children : Nibble → Option ChildRef} {cs : Nibble → Mpt}
    (hsource : t.source = nodesOf keccak256 base) (hm : m ≤ 64) (hc : ∀ i, (cs i).Canon m)
    (hs : ∀ i, Stands keccak256 base t (path ++ [i]) (cs i)) (hne : ∃ i, cs i ≠ .empty)
    (hn : Shows keccak256 base path (.branch children) (.branch cs)) :
    ∃ t' n', t.repairBranch path children = .ok (t', n') ∧ Framed path t (t'.put path n') ∧
      Stands keccak256 base (t'.put path n') path (Tree.collapse cs) := by
  have hsome : ∀ i, i ∈ (List.finRange 16).filter (fun i => (children i).isSome) ↔ cs i ≠ .empty := by
    intro i
    cases hn with
    | branch hnone hr =>
      rw [ne_eq, ← not_iff_not.2 (hnone i), List.mem_filter, Option.isSome_iff_ne_none]
      simp
  unfold Trie.repairBranch
  obtain ⟨i, hi, honly, heq⟩ | ⟨⟨i, j, hij, hi, hj⟩, heq⟩ := Tree.collapse_cases cs hne
  · have hone : (List.finRange 16).filter (fun i => (children i).isSome) = [i] := by
      rw [← List.perm_singleton,
        List.perm_ext_iff_of_nodup ((List.nodup_finRange 16).filter _) (List.nodup_singleton i)]
      intro j
      rw [hsome, List.mem_singleton]
      exact ⟨fun hj => by_contra fun hji => hj (honly j hji), fun hji => hji ▸ hi⟩
    obtain ⟨n, hget, hshow⟩ := get_some hsource hm (hc i) hi (hs i).at
    obtain ⟨t', n', hrun, hframe, hstands⟩ := mergeExt_spec (by simp) (hc i) (hs i) hshow fun p hp hsp => by
      cases p with
      | nil => exact absurd rfl hp
      | cons j p =>
        have hji : j ≠ i := by
          rintro rfl
          simp [strip] at hsp
        have hempty := hs j p
        rwa [honly j hji, List.append_assoc] at hempty
    rw [pullUp_eq] at hrun
    simp only [hone, List.length_singleton, show ¬2 ≤ 1 by omega, if_false, hget, bind, Except.bind]
    exact ⟨t', n', hrun, hframe, heq ▸ hstands⟩
  · have htwo : 2 ≤ ((List.finRange 16).filter fun i => (children i).isSome).length := by
      have himem := (hsome i).2 hi
      have hjmem := (hsome j).2 hj
      have hpos := List.length_pos_of_mem himem
      by_contra hlt
      obtain ⟨x, hx⟩ := List.length_eq_one_iff.1 (Nat.le_antisymm (Nat.lt_succ_iff.1 (not_le.1 hlt)) hpos)
      rw [hx, List.mem_singleton] at himem hjmem
      exact hij (himem.trans hjmem.symm)
    simp only [if_pos htwo]
    refine ⟨_, _, rfl, Framed.rfl.put List.prefix_rfl, ?_⟩
    rw [heq]
    exact Stands.branch (.put hn) fun i => (hs i).congr fun p => dirty_put_of_ne (by simp)

theorem dirty_replaced {o : Option Node} (hs : Stands keccak256 base t path s) (hd : t.dirty path = some o) :
    (o = none ↔ s = .empty) ∧ ∀ n, o = some n → Shows keccak256 base path n s := by
  have h := hs.at
  unfold StandsAt at h
  rw [hd] at h
  cases o with
  | none => exact ⟨⟨fun _ => h, fun _ => rfl⟩, by simp⟩
  | some n =>
    refine ⟨⟨by simp, ?_⟩, ?_⟩
    · rintro rfl
      cases h
    · rintro _ ⟨rfl⟩
      exact h

/-- Walking down to a key and repairing the way up is removing it. -/
theorem remove_spec (hsource : t.source = nodesOf keccak256 base) (hm : m ≤ 64) (hc : s.Canon m)
    (hs : Stands keccak256 base t path s) (hrest : rest.length = m) (hfuel : m < fuel) :
    (s.lookup rest = none ∧ ∀ stack, t.walk fuel path rest stack = .ok none) ∨
      ∃ leafPath node above t' o,
        (∀ stack, t.walk fuel path rest stack = .ok (some ((leafPath, node) :: (above ++ stack)))) ∧
        (∀ stack, Trie.repair (above ++ stack) (t.remove leafPath) leafPath none = Trie.repair stack t' path o) ∧
        Framed path t t' ∧ t'.dirty path = some o ∧ Stands keccak256 base t' path (s.remove rest) := by
  induction hc generalizing path rest fuel with
  | empty =>
    obtain ⟨fuel, rfl⟩ : ∃ f, fuel = f + 1 := ⟨fuel - 1, by omega⟩
    refine .inl ⟨rfl, fun stack => ?_⟩
    simp only [Trie.walk, get_empty hsource hs.at, bind, Except.bind]
  | @leaf m k v hk =>
    obtain ⟨fuel, rfl⟩ : ∃ f, fuel = f + 1 := ⟨fuel - 1, by omega⟩
    obtain ⟨n, hget, hn⟩ := get_some hsource hm (.leaf hk) (by simp) hs.at
    cases hn
    simp only [Trie.walk, hget, bind, Except.bind, Tree.lookup, Tree.remove]
    by_cases hkey : rest = k
    · subst hkey
      refine .inr ⟨path, .leaf rest v.bytes, [], t.remove path, none, fun stack => ?_, fun stack => rfl,
        Framed.rfl.remove List.prefix_rfl, dirty_remove, ?_⟩
      · rw [if_pos rfl]
        rfl
      · rw [if_pos rfl]
        intro p
        by_cases hp : p = []
        · rw [hp, List.append_nil]
          exact standsAt_remove
        · exact (hs.under_leaf hp).congr (dirty_remove_of_ne (by simpa using hp))
    · refine .inl ⟨if_neg hkey, fun stack => ?_⟩
      rw [if_neg (Ne.symm hkey)]
  | @ext m k cs hk hcs ih =>
    obtain ⟨fuel, rfl⟩ : ∃ f, fuel = f + 1 := ⟨fuel - 1, by omega⟩
    obtain ⟨n, hget, hn⟩ := get_some hsource hm (.ext hk hcs) (by simp) hs.at
    cases hn with
    | @ext _ r _ hr =>
      simp only [Trie.walk, hget, bind, Except.bind, Tree.lookup, Tree.remove]
      cases hsp : strip k rest with
      | none => exact .inl ⟨rfl, fun stack => rfl⟩
      | some q =>
        obtain rfl := strip_eq_some.1 hsp
        have hlen := List.length_pos_of_ne_nil hk
        rw [List.length_append] at hrest
        obtain ⟨hlook, hwalk⟩ | ⟨leafPath, node, above, t₁, o, hwalk, hrepair, hframe, hd, hs₁⟩ :=
          ih (by omega) (hs.below hk) (by omega : q.length = _) (by omega : _ < fuel)
        · exact .inl ⟨hlook, fun stack => hwalk _⟩
        · obtain ⟨hnone, hshow⟩ := dirty_replaced hs₁ hd
          obtain ⟨n, rfl⟩ := Option.ne_none_iff_exists'.1 (mt hnone.1 (hcs.remove_branch_ne q))
          obtain ⟨t', n', hmerge, hframe', hs'⟩ := mergeExt_spec hk (hcs.remove q) hs₁ (hshow n rfl) fun p hp hps =>
            (hs.beside hp hps).congr (hframe.dirty _ (by rwa [List.prefix_append_right_inj, ← strip_eq_none]))
          refine .inr ⟨leafPath, node, above ++ [(path, .ext k r)], t'.put path n', some n', fun stack => ?_,
            fun stack => ?_, hframe.mono.trans hframe', dirty_put, hs'⟩
          · rw [List.append_assoc]
            exact hwalk _
          · rw [List.append_assoc, hrepair]
            simp only [List.cons_append, List.nil_append, Trie.repair, hmerge, bind, Except.bind]
  | @branch m cs i j hij hi hj hcs ih =>
    obtain ⟨fuel, rfl⟩ : ∃ f, fuel = f + 1 := ⟨fuel - 1, by omega⟩
    obtain ⟨n, hget, hn⟩ := get_some hsource hm (.branch hij hi hj hcs) (by simp) hs.at
    cases hn with
    | @branch children _ hnone hr =>
      cases rest with
      | nil => simp at hrest
      | cons c rest =>
        simp only [Trie.walk, hget, bind, Except.bind, Tree.lookup, Tree.remove, Option.isNone_iff_eq_none]
        by_cases hempty : children c = none
        · refine .inl ⟨?_, fun stack => if_pos hempty⟩
          rw [(hnone c).1 hempty]
          rfl
        · simp only [if_neg hempty]
          obtain ⟨hlook, hwalk⟩ | ⟨leafPath, node, above, t₁, o, hwalk, hrepair, hframe, hd, hs₁⟩ :=
            ih c (by omega) (hs.child c) (by simpa using hrest : rest.length = _) (by omega : _ < fuel)
          · exact .inl ⟨hlook, fun stack => hwalk _⟩
          · obtain ⟨hnone', -⟩ := dirty_replaced hs₁ hd
            -- the other children are as before
            have hothers : ∀ x, Stands keccak256 base t₁ (path ++ [x])
                (Function.update cs c ((cs c).remove rest) x) := by
              intro x
              by_cases hxc : x = c
              · subst hxc
                rw [Function.update_self]
                exact hs₁
              · rw [Function.update_of_ne hxc]
                exact (hs.child x).congr fun p => hframe.dirty _ (by simp [Ne.symm hxc])
            have hcanon : ∀ x, (Function.update cs c ((cs c).remove rest) x).Canon m := by
              intro x
              by_cases hxc : x = c
              · subst hxc
                rw [Function.update_self]
                exact (hcs x).remove rest
              · rw [Function.update_of_ne hxc]
                exact hcs x
            have hshow : Shows keccak256 base path (.branch (Function.update children c (o.map fun _ => none)))
                (.branch (Function.update cs c ((cs c).remove rest))) := by
              refine .branch (fun x => ?_) fun x y hxy => ?_
              · by_cases hxc : x = c
                · subst hxc
                  rw [Function.update_self, Function.update_self, Option.map_eq_none_iff]
                  exact hnone'
                · rw [Function.update_of_ne hxc, Function.update_of_ne hxc]
                  exact hnone x
              · by_cases hxc : x = c
                · subst hxc
                  rw [Function.update_self] at hxy
                  simp at hxy
                · rw [Function.update_of_ne hxc] at hxy ⊢
                  exact hr x y hxy
            obtain ⟨t', n', hbranch, hframe', hs'⟩ := repairBranch_spec (hframe.source.trans hsource) (by omega)
              hcanon hothers (Tree.Canon.exists_update_ne hij hi hj _) hshow
            refine .inr ⟨leafPath, node, above ++ [(path, .branch children)], t'.put path n', some n',
              fun stack => ?_, fun stack => ?_, hframe.mono.trans hframe', dirty_put, hs'⟩
            · rw [List.append_assoc]
              exact hwalk _
            · rw [List.append_assoc, hrepair]
              simp only [List.cons_append, List.nil_append, Trie.repair, List.drop_left, hbranch, bind, Except.bind]

end Remove

end Boltchain.Store
