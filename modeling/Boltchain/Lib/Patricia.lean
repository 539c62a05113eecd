import Mathlib

namespace Boltchain.Lib.Patricia

/-- Radix trees with path compression. Values sit at leaves only, so keys must all be of one length. -/
inductive Tree (α V : Type) where
  | empty
  | leaf (key : List α) (value : V)
  | ext (key : List α) (child : Tree α V)
  | branch (children : α → Tree α V)

variable {α V : Type} [DecidableEq α]

section Paths

def strip : List α → List α → Option (List α)
  | [], p => some p
  | _ :: _, [] => none
  | a :: k, b :: p => if a = b then strip k p else none

/-- The longest common start of two paths and what follows it in each. -/
def split : List α → List α → List α × List α × List α
  | a :: k, b :: p => if a = b then ((split k p).1.cons a, (split k p).2) else ([], a :: k, b :: p)
  | k, p => ([], k, p)

variable {k p : List α}

theorem strip_eq_some {q : List α} : strip k p = some q ↔ p = k ++ q := by
  induction k generalizing p with
  | nil => simp [strip, eq_comm]
  | cons a k ih =>
    cases p with
    | nil => simp [strip]
    | cons b p =>
      by_cases h : a = b
      · simp [strip, h, ih]
      · simp [strip, h, Ne.symm h]

@[simp] theorem strip_append (k q : List α) : strip k (k ++ q) = some q := strip_eq_some.2 rfl

@[simp] theorem strip_self (k : List α) : strip k k = some [] := strip_eq_some.2 (List.append_nil k).symm

theorem strip_eq_none : strip k p = none ↔ ¬k <+: p := by
  rw [← not_iff_not, not_not, ← ne_eq, Option.ne_none_iff_exists']
  exact exists_congr fun q => strip_eq_some.trans eq_comm

theorem strip_append_left (k l p : List α) : strip (k ++ l) p = (strip k p).bind (strip l) := by
  induction k generalizing p with
  | nil => rfl
  | cons b k ih =>
    cases p with
    | nil => rfl
    | cons c p =>
      by_cases h : b = c
      · simp [strip, h, ih]
      · simp [strip, h]

theorem split_left (k p : List α) : k = (split k p).1 ++ (split k p).2.1 := by
  induction k generalizing p with
  | nil => cases p <;> rfl
  | cons a k ih =>
    cases p with
    | nil => rfl
    | cons b p =>
      by_cases h : a = b
      · simpa [split, h] using ih p
      · simp [split, h]

theorem split_right (k p : List α) : p = (split k p).1 ++ (split k p).2.2 := by
  induction k generalizing p with
  | nil => cases p <;> rfl
  | cons a k ih =>
    cases p with
    | nil => rfl
    | cons b p =>
      by_cases h : a = b
      · simpa [split, h] using ih p
      · simp [split, h]

theorem split_ne {s k' p' : List α} {a b : α} (h : split k p = (s, a :: k', b :: p')) : a ≠ b := by
  induction k generalizing p s with
  | nil => cases p <;> simp [split] at h
  | cons c k ih =>
    cases p with
    | nil => simp [split] at h
    | cons d p =>
      by_cases hcd : c = d
      · rw [split, if_pos hcd] at h
        obtain ⟨-, h⟩ := Prod.mk.inj h
        exact ih (s := (split k p).1) (by rw [← h])
      · rw [split, if_neg hcd] at h
        simp only [Prod.mk.injEq, List.cons.injEq] at h
        obtain ⟨-, ⟨rfl, -⟩, rfl, -⟩ := h
        exact hcd

theorem split_cases (h : k.length ≤ p.length) :
    (∃ p', split k p = (k, [], p') ∧ p = k ++ p') ∨
      ∃ s a k' b p', split k p = (s, a :: k', b :: p') ∧ k = s ++ a :: k' ∧ p = s ++ b :: p' ∧ a ≠ b := by
  have hk := split_left k p
  have hp := split_right k p
  rcases hs : split k p with ⟨s, k', p'⟩
  rw [hs] at hk hp
  cases k' with
  | nil =>
    rw [List.append_nil] at hk
    exact .inl ⟨p', by rw [hk], by rw [hk]; exact hp⟩
  | cons a k' =>
    cases p' with
    | nil =>
      have hlen := congrArg List.length hk
      have hlen' := congrArg List.length hp
      simp only [List.length_append, List.length_cons, List.length_nil] at hlen hlen'
      omega
    | cons b p' => exact .inr ⟨s, a, k', b, p', rfl, hk, hp, split_ne hs⟩

end Paths

namespace Tree

def lookup : Tree α V → List α → Option V
  | empty, _ => none
  | leaf k v, p => if p = k then some v else none
  | ext k c, p => (strip k p).bind c.lookup
  | branch _, [] => none
  | branch cs, i :: p => (cs i).lookup p

def sub : Tree α V → List α → Tree α V
  | empty, _ => empty
  | leaf k v, p => if p = [] then leaf k v else empty
  | ext k c, p => if p = [] then ext k c else (strip k p).elim empty c.sub
  | branch cs, [] => branch cs
  | branch cs, i :: p => (cs i).sub p

def isEmpty : Tree α V → Bool
  | empty => true
  | _ => false

omit [DecidableEq α] in
@[simp] theorem isEmpty_iff {t : Tree α V} : t.isEmpty = true ↔ t = empty := by
  cases t <;> simp [isEmpty]

instance (t : Tree α V) : Decidable (t = empty) := decidable_of_iff _ isEmpty_iff

def wrap (k : List α) (t : Tree α V) : Tree α V := if k = [] then t else ext k t

def fork (s : List α) (a : α) (t : Tree α V) (b : α) (u : Tree α V) : Tree α V :=
  wrap s (branch (Function.update (Function.update (fun _ => empty) a t) b u))

def insert : Tree α V → List α → V → Tree α V
  | empty, p, v => leaf p v
  | leaf k w, p, v =>
    if p = k then leaf k v
    else
      match split k p with
      | (s, a :: k', b :: p') => fork s a (leaf k' w) b (leaf p' v)
      | _ => leaf k w
  | ext k c, p, v =>
    match split k p with
    | (_, [], p') => ext k (c.insert p' v)
    | (s, a :: k', b :: p') => fork s a (wrap k' c) b (leaf p' v)
    | (_, _ :: _, []) => ext k c
  | branch cs, i :: p, v => branch (Function.update cs i ((cs i).insert p v))
  | branch cs, [], _ => branch cs

/-- A node pulled up along a path: only a branch needs an extension above it. -/
def join (k : List α) : Tree α V → Tree α V
  | empty => empty
  | leaf k' v => leaf (k ++ k') v
  | ext k' c => ext (k ++ k') c
  | branch cs => ext k (branch cs)

open Classical in
noncomputable def collapse (cs : α → Tree α V) : Tree α V :=
  if h : ∃ i, cs i ≠ empty ∧ ∀ j, j ≠ i → cs j = empty then join [h.choose] (cs h.choose) else branch cs

noncomputable def remove : Tree α V → List α → Tree α V
  | empty, _ => empty
  | leaf k v, p => if p = k then empty else leaf k v
  | ext k c, p => (strip k p).elim (ext k c) fun q => join k (c.remove q)
  | branch cs, [] => branch cs
  | branch cs, i :: p => collapse (Function.update cs i ((cs i).remove p))

/-- Trees in the one form a map has: keys of length `n`, extensions over branches only, branches with
two children or more. -/
inductive Canon : Nat → Tree α V → Prop where
  | empty {n : Nat} : Canon n empty
  | leaf {n : Nat} {k : List α} {v : V} (hk : k.length = n) : Canon n (leaf k v)
  | ext {n : Nat} {k : List α} {cs : α → Tree α V} (hk : k ≠ []) (hc : Canon n (branch cs)) :
      Canon (k.length + n) (ext k (branch cs))
  | branch {n : Nat} {cs : α → Tree α V} {i j : α} (hij : i ≠ j) (hi : cs i ≠ empty) (hj : cs j ≠ empty)
      (hcs : ∀ i, Canon n (cs i)) : Canon (n + 1) (branch cs)

section Lookup

variable {n : Nat} {t u : Tree α V} {k p q : List α} {v : V}

theorem lookup_wrap (k : List α) (t : Tree α V) (p : List α) :
    (wrap k t).lookup p = (strip k p).bind t.lookup := by
  unfold wrap
  split
  case isTrue h => subst h; rfl
  case isFalse => rfl

theorem lookup_join (k : List α) (t : Tree α V) (p : List α) :
    (join k t).lookup p = (strip k p).bind t.lookup := by
  cases t with
  | empty =>
    show none = _
    cases strip k p <;> rfl
  | leaf k' v =>
    show (if p = k ++ k' then some v else none) = _
    cases h : strip k p with
    | none =>
      have hne : p ≠ k ++ k' := fun heq => by rw [heq, strip_append] at h; cases h
      rw [if_neg hne]
      rfl
    | some q =>
      rw [strip_eq_some.1 h]
      simp [lookup]
  | ext k' c =>
    show (strip (k ++ k') p).bind c.lookup = _
    rw [strip_append_left]
    cases strip k p <;> rfl
  | branch cs => rfl

theorem lookup_fork (s : List α) (a : α) (t : Tree α V) (b : α) (u : Tree α V) (q : List α) :
    (fork s a t b u).lookup q = (strip s q).bind fun r =>
      match r with
      | [] => none
      | c :: r => if c = b then u.lookup r else if c = a then t.lookup r else none := by
  rw [fork, lookup_wrap]
  congr 1
  funext r
  cases r with
  | nil => rfl
  | cons c r =>
    show (Function.update (Function.update (fun _ => empty) a t) b u c).lookup r = _
    by_cases hb : c = b
    · simp [hb]
    · rw [Function.update_of_ne hb]
      simp only [if_neg hb]
      by_cases ha : c = a
      · simp [ha]
      · simp [ha, lookup]

theorem Canon.length (h : Canon n t) (hp : t.lookup p = some v) : p.length = n := by
  induction h generalizing p with
  | empty => cases hp
  | leaf hk =>
    simp only [lookup] at hp
    split at hp
    case isTrue heq => rw [heq, hk]
    case isFalse => cases hp
  | @ext n k cs hk hc ih =>
    obtain ⟨q, hq, hv⟩ := Option.bind_eq_some_iff.1 hp
    rw [strip_eq_some.1 hq, List.length_append, ih hv]
  | branch hij hi hj hcs ih =>
    cases p with
    | nil => cases hp
    | cons i p => rw [List.length_cons, ih i hp]

theorem Canon.exists_lookup (h : Canon n t) (hne : t ≠ .empty) : ∃ p v, t.lookup p = some v := by
  induction h with
  | empty => exact absurd rfl hne
  | @leaf n k v hk => exact ⟨k, v, if_pos rfl⟩
  | @ext n k cs hk hc ih =>
    obtain ⟨p, v, hp⟩ := ih (by simp)
    exact ⟨k ++ p, v, by simpa [lookup] using hp⟩
  | @branch n cs i j hij hi hj hcs ih =>
    obtain ⟨p, v, hp⟩ := ih i hi
    exact ⟨i :: p, v, hp⟩

theorem Canon.branch_parts {cs : α → Tree α V} (h : Canon n (.branch cs)) :
    ∃ i j p q v w, i ≠ j ∧ (cs i).lookup p = some v ∧ (cs j).lookup q = some w := by
  cases h with
  | @branch n _ i j hij hi hj hcs =>
    obtain ⟨p, v, hp⟩ := (hcs i).exists_lookup hi
    obtain ⟨q, w, hq⟩ := (hcs j).exists_lookup hj
    exact ⟨i, j, p, q, v, w, hij, hp, hq⟩

end Lookup

section Unique

variable {n m : Nat} {t u : Tree α V} {k k' : List α} {cs ds : α → Tree α V}

theorem ext_ne_branch (hk : k ≠ []) (hd : Canon n (.branch ds)) :
    ∃ p, (ext k t).lookup p ≠ (branch ds).lookup p := by
  by_contra hsame
  push Not at hsame
  obtain ⟨i, j, p, q, v, w, hij, hp, hq⟩ := hd.branch_parts
  have hfirst : ∀ {x : α} {r : List α} {y : V}, (ds x).lookup r = some y → ∃ z, x :: r = k ++ z := by
    intro x r y hy
    have h := hsame (x :: r)
    simp only [lookup, hy] at h
    obtain ⟨z, hz, -⟩ := Option.bind_eq_some_iff.1 h
    exact ⟨z, strip_eq_some.1 hz⟩
  obtain ⟨y, hy⟩ := hfirst hp
  obtain ⟨z, hz⟩ := hfirst hq
  cases k with
  | nil => exact hk rfl
  | cons a k =>
    rw [List.cons_append, List.cons.injEq] at hy hz
    exact hij (hy.1.trans hz.1.symm)

theorem leaf_ne_wrap {v : V} (k' : List α) (hd : Canon n (.branch ds)) :
    ∃ p, (leaf k v).lookup p ≠ (wrap k' (.branch ds)).lookup p := by
  by_contra hsame
  push Not at hsame
  obtain ⟨i, j, p, q, v, w, hij, hp, hq⟩ := hd.branch_parts
  have hone : ∀ {x : α} {r : List α} {y : V}, (ds x).lookup r = some y → k' ++ x :: r = k := by
    intro x r y hy
    have h := hsame (k' ++ x :: r)
    rw [lookup_wrap, strip_append, Option.bind_some, lookup, lookup, hy, Option.ite_none_right_eq_some] at h
    exact h.1
  have h := List.append_cancel_left ((hone hp).trans (hone hq).symm)
  exact hij (List.cons.inj h).1

theorem ext_key_le (hc : Canon n (.branch cs)) (hsame : ∀ p, (ext k (.branch cs)).lookup p = (ext k' u).lookup p) :
    ∃ s, k = k' ++ s := by
  obtain ⟨i, j, p, q, v, w, hij, hp, hq⟩ := hc.branch_parts
  have hkey : ∀ {x : α} {r : List α} {y : V}, (cs x).lookup r = some y → ∃ z, k ++ x :: r = k' ++ z := by
    intro x r y hy
    have h := hsame (k ++ x :: r)
    simp only [lookup, strip_append, Option.bind_some, hy] at h
    obtain ⟨z, hz, -⟩ := Option.bind_eq_some_iff.1 h.symm
    exact ⟨z, strip_eq_some.1 hz⟩
  obtain ⟨y, hy⟩ := hkey hp
  obtain ⟨z, hz⟩ := hkey hq
  -- if `k` were shorter, both keys would go on with the same letter
  rcases List.append_eq_append_iff.1 hy with ⟨c, rfl, hc'⟩ | ⟨s, rfl, -⟩
  · rw [List.append_assoc, List.append_right_inj] at hz
    cases c with
    | nil => exact ⟨[], by simp⟩
    | cons d c =>
      rw [List.cons_append, List.cons.injEq] at hc' hz
      exact absurd (hc'.1.trans hz.1.symm) hij
  · exact ⟨s, rfl⟩

theorem wrap_of_ne (hk : k ≠ []) : wrap k t = ext k t := if_neg hk

/-- A map has one canonical tree. -/
theorem Canon.unique (ht : Canon n t) (hu : Canon n u) (hsame : ∀ p, t.lookup p = u.lookup p) : t = u := by
  have hempty : ∀ {n : Nat} {t : Tree α V}, Canon n t → (∀ p, Tree.lookup .empty p = t.lookup p) → t = .empty := by
    intro n t ht h
    by_contra hne
    obtain ⟨p, v, hp⟩ := ht.exists_lookup hne
    rw [← h] at hp
    cases hp
  induction ht generalizing u with
  | empty => exact (hempty hu hsame).symm
  | @leaf n k v hk =>
    cases hu with
    | empty => exact hempty (.leaf hk) fun p => (hsame p).symm
    | @leaf _ k' v' _ =>
      have h := hsame k
      rw [lookup, if_pos rfl, lookup] at h
      obtain ⟨rfl, hv⟩ := Option.ite_none_right_eq_some.1 h.symm
      cases hv
      rfl
    | @ext m k' cs hk' hc =>
      obtain ⟨p, hp⟩ := leaf_ne_wrap k' hc
      exact absurd (by rw [wrap_of_ne hk']; exact hsame p) hp
    | branch hij hi hj hcs =>
      obtain ⟨p, hp⟩ := leaf_ne_wrap [] (.branch hij hi hj hcs)
      exact absurd (hsame p) hp
  | @ext n k cs hk hc ih =>
    generalize hm : k.length + n = m at hu
    cases hu with
    | empty => exact hempty (.ext hk hc) fun p => (hsame p).symm
    | leaf hk' =>
      obtain ⟨p, hp⟩ := leaf_ne_wrap k hc
      exact absurd (by rw [wrap_of_ne hk]; exact (hsame p).symm) hp
    | @ext m k' ds hk' hd =>
      obtain ⟨s, rfl⟩ := ext_key_le hc hsame
      obtain ⟨r, hr⟩ := ext_key_le hd fun p => (hsame p).symm
      have hs : s = [] := by
        have := congrArg List.length hr
        simp only [List.length_append] at this
        exact List.length_eq_zero_iff.1 (by omega)
      subst hs
      rw [List.append_nil] at hm ⊢
      obtain rfl : n = m := by omega
      rw [ih hd fun p => ?_]
      have h := hsame (k' ++ p)
      simpa only [lookup, List.append_nil, strip_append, Option.bind_some] using h
    | branch hij hi hj hds =>
      obtain ⟨p, hp⟩ := ext_ne_branch hk (.branch hij hi hj hds)
      exact absurd (hsame p) hp
  | @branch n cs i j hij hi hj hcs ih =>
    generalize hm : n + 1 = m at hu
    cases hu with
    | empty => exact hempty (.branch hij hi hj hcs) fun p => (hsame p).symm
    | leaf hk' =>
      obtain ⟨p, hp⟩ := leaf_ne_wrap [] (.branch hij hi hj hcs)
      exact absurd (hsame p).symm hp
    | ext hk' hd =>
      obtain ⟨p, hp⟩ := ext_ne_branch hk' (.branch hij hi hj hcs)
      exact absurd (hsame p).symm hp
    | branch hij' hi' hj' hds =>
      cases hm
      exact congrArg Tree.branch (funext fun x => ih x (hds x) fun p => hsame (x :: p))

end Unique

section Insert

variable {n : Nat} {t u : Tree α V} {k p q : List α} {v : V}

theorem Canon.wrap {cs : α → Tree α V} (h : Canon n (.branch cs)) (k : List α) :
    Canon (k.length + n) (Tree.wrap k (.branch cs)) := by
  unfold Tree.wrap
  split
  case isTrue hk => rw [hk, List.length_nil, Nat.zero_add]; exact h
  case isFalse hk => exact .ext hk h

theorem wrap_ne_empty (ht : t ≠ empty) : wrap k t ≠ empty := by
  unfold wrap
  split
  case isTrue => exact ht
  case isFalse => simp

theorem Canon.fork {a b : α} (s : List α) (hab : a ≠ b) (ht : Canon n t) (hte : t ≠ .empty) (hu : Canon n u)
    (hue : u ≠ .empty) : Canon (s.length + (n + 1)) (Tree.fork s a t b u) := by
  refine Canon.wrap (.branch (i := a) (j := b) hab ?_ ?_ fun c => ?_) s
  · rw [Function.update_of_ne hab, Function.update_self]
    exact hte
  · rw [Function.update_self]
    exact hue
  · by_cases hb : c = b
    · rw [hb, Function.update_self]
      exact hu
    · rw [Function.update_of_ne hb]
      by_cases ha : c = a
      · rw [ha, Function.update_self]
        exact ht
      · rw [Function.update_of_ne ha]
        exact .empty

theorem insert_ne_empty (t : Tree α V) (p : List α) (v : V) : t.insert p v ≠ empty := by
  cases t with
  | empty => simp [insert]
  | leaf k w =>
    unfold insert
    split
    · simp
    · split
      · exact wrap_ne_empty (by simp)
      · simp
  | ext k c =>
    unfold insert
    split
    · simp
    · exact wrap_ne_empty (by simp)
    · simp
  | branch cs => cases p <;> simp [insert]

/-- Inserting keeps a tree canonical. -/
theorem Canon.insert (h : Canon n t) (hp : p.length = n) : Canon n (t.insert p v) := by
  induction h generalizing p with
  | empty => exact .leaf hp
  | @leaf n k w hk =>
    rw [Tree.insert]
    split
    case isTrue => exact .leaf hk
    case isFalse hne =>
      obtain ⟨p', -, heq⟩ | ⟨s, a, k', b, p', hs, rfl, rfl, hab⟩ := split_cases (hk.trans hp.symm).le
      · have hnil : p' = [] := by
          have := congrArg List.length heq
          rw [List.length_append] at this
          exact List.length_eq_zero_iff.1 (by omega)
        rw [hnil, List.append_nil] at heq
        exact absurd heq hne
      · rw [hs]
        simp only [List.length_append, List.length_cons] at hk hp
        have hn : n = s.length + (k'.length + 1) := hk.symm
        rw [hn]
        exact Canon.fork s hab (.leaf rfl) (by simp) (.leaf (by omega)) (by simp)
  | @ext n k cs hk hc ih =>
    rw [Tree.insert]
    obtain ⟨p', hs, rfl⟩ | ⟨s, a, k', b, p', hs, rfl, rfl, hab⟩ := split_cases (k := k) (p := p) (by omega)
    · rw [hs]
      rw [List.length_append] at hp
      have hbranch : ∃ ds, (Tree.branch cs).insert p' v = .branch ds := by
        cases p' <;> exact ⟨_, rfl⟩
      obtain ⟨ds, hds⟩ := hbranch
      have hcanon := ih (p := p') (by omega)
      simp only [hds] at hcanon ⊢
      exact .ext hk hcanon
    · rw [hs]
      simp only [List.length_append, List.length_cons] at hp ⊢
      have hn : s.length + (k'.length + 1) + n = s.length + (k'.length + n + 1) := by omega
      rw [hn]
      exact Canon.fork s hab (hc.wrap k') (wrap_ne_empty (by simp)) (.leaf (by omega)) (by simp)
  | @branch n cs i j hij hi hj hcs ih =>
    cases p with
    | nil => simp at hp
    | cons c p =>
      rw [Tree.insert]
      have hne : ∀ x, cs x ≠ .empty → Function.update cs c ((cs c).insert p v) x ≠ .empty := by
        intro x hx
        by_cases hxc : x = c
        · rw [hxc, Function.update_self]
          exact insert_ne_empty _ _ _
        · rw [Function.update_of_ne hxc]
          exact hx
      refine .branch hij (hne i hi) (hne j hj) fun x => ?_
      by_cases hxc : x = c
      · rw [hxc, Function.update_self]
        exact ih c (by simpa using hp)
      · rw [Function.update_of_ne hxc]
        exact hcs x

theorem lookup_fork_eq {s p' : List α} {a b : α} (hab : a ≠ b) (hold : ∀ r, t.lookup (s ++ r) =
    (strip [a] r).bind u.lookup) (hout : ∀ q, strip s q = none → t.lookup q = none) (q : List α) :
    (fork s a u b (leaf p' v)).lookup q = if q = s ++ b :: p' then some v else t.lookup q := by
  rw [lookup_fork]
  cases hq : strip s q with
  | none =>
    have hne : q ≠ s ++ b :: p' := fun heq => by rw [heq, strip_append] at hq; cases hq
    rw [if_neg hne, hout q hq]
    rfl
  | some r =>
    obtain rfl := strip_eq_some.1 hq
    rw [hold, Option.bind_some]
    simp only [List.append_cancel_left_eq]
    cases r with
    | nil => rfl
    | cons c r =>
      by_cases hb : c = b
      · subst hb
        simp [lookup, strip, hab]
      · by_cases ha : c = a
        · subst ha
          simp [strip, hab]
        · simp [strip, hb, ha, Ne.symm ha]

/-- Inserting sets one key and keeps the others. -/
theorem Canon.lookup_insert (h : Canon n t) (hp : p.length = n) (q : List α) :
    (t.insert p v).lookup q = if q = p then some v else t.lookup q := by
  induction h generalizing p q with
  | empty => rfl
  | @leaf n k w hk =>
    rw [Tree.insert]
    split
    case isTrue heq =>
      subst heq
      simp only [lookup]
      split <;> rfl
    case isFalse hne =>
      obtain ⟨p', -, heq⟩ | ⟨s, a, k', b, p', hs, rfl, rfl, hab⟩ := split_cases (hk.trans hp.symm).le
      · have hnil : p' = [] := by
          have := congrArg List.length heq
          rw [List.length_append] at this
          exact List.length_eq_zero_iff.1 (by omega)
        rw [hnil, List.append_nil] at heq
        exact absurd heq hne
      · rw [hs]
        refine lookup_fork_eq hab (fun r => ?_) (fun q hq => ?_) q
        · cases r with
          | nil => simp [lookup, strip]
          | cons c r =>
            by_cases hac : a = c
            · simp [lookup, strip, hac]
            · simp [lookup, strip, hac, Ne.symm hac]
        · refine if_neg fun heq => ?_
          rw [heq, strip_append] at hq
          cases hq
  | @ext n k cs hk hc ih =>
    rw [Tree.insert]
    obtain ⟨p', hs, rfl⟩ | ⟨s, a, k', b, p', hs, rfl, rfl, hab⟩ := split_cases (k := k) (p := p) (by omega)
    · rw [hs]
      rw [List.length_append] at hp
      simp only [lookup]
      cases hq : strip k q with
      | none =>
        have hne : q ≠ k ++ p' := fun heq => by rw [heq, strip_append] at hq; cases hq
        rw [if_neg hne]
        rfl
      | some r =>
        obtain rfl := strip_eq_some.1 hq
        rw [Option.bind_some, Option.bind_some, ih (p := p') (by omega)]
        simp only [List.append_cancel_left_eq]
    · rw [hs]
      refine lookup_fork_eq hab (fun r => ?_) (fun q hq => ?_) q
      · rw [lookup, strip_append_left, strip_append, Option.bind_some]
        show strip ([a] ++ k') r >>= _ = _
        rw [strip_append_left, Option.bind_eq_bind, Option.bind_assoc]
        exact congrArg _ (funext fun x => (lookup_wrap k' _ x).symm)
      · rw [lookup, strip_append_left, hq]
        rfl
  | @branch n cs i j hij hi hj hcs ih =>
    cases p with
    | nil => simp at hp
    | cons c p =>
      rw [Tree.insert]
      cases q with
      | nil => rfl
      | cons d q =>
        simp only [lookup, List.cons.injEq]
        by_cases hd : d = c
        · subst hd
          rw [Function.update_self, ih d (by simpa using hp)]
          simp
        · simp [Function.update_of_ne hd, hd]

end Insert

section Remove

variable {n : Nat} {t : Tree α V} {k p q : List α} {cs : α → Tree α V}

theorem Canon.join (h : Canon n t) (hk : k ≠ []) : Canon (k.length + n) (Tree.join k t) := by
  cases h with
  | empty => exact .empty
  | leaf hk' => exact .leaf (by rw [List.length_append, hk'])
  | @ext n k' cs hk' hc =>
    rw [← Nat.add_assoc, ← List.length_append]
    exact .ext (by simp [hk]) hc
  | branch hij hi hj hcs => exact .ext hk (.branch hij hi hj hcs)

theorem join_eq_empty : join k t = empty ↔ t = empty := by
  cases t <;> simp [join]

theorem collapse_cases (cs : α → Tree α V) (hne : ∃ i, cs i ≠ empty) :
    (∃ i, cs i ≠ empty ∧ (∀ j, j ≠ i → cs j = empty) ∧ collapse cs = join [i] (cs i)) ∨
      (∃ i j, i ≠ j ∧ cs i ≠ empty ∧ cs j ≠ empty) ∧ collapse cs = branch cs := by
  unfold collapse
  split
  case isTrue h => exact .inl ⟨h.choose, h.choose_spec.1, h.choose_spec.2, rfl⟩
  case isFalse h =>
    refine .inr ⟨?_, rfl⟩
    obtain ⟨i, hi⟩ := hne
    push Not at h
    obtain ⟨j, hji, hj⟩ := h i hi
    exact ⟨i, j, hji.symm, hi, hj⟩

theorem lookup_collapse (hne : ∃ i, cs i ≠ empty) (p : List α) :
    (collapse cs).lookup p = (branch cs).lookup p := by
  obtain ⟨i, hi, honly, heq⟩ | ⟨-, heq⟩ := collapse_cases cs hne
  · rw [heq, lookup_join]
    cases p with
    | nil => rfl
    | cons j p =>
      by_cases hij : i = j
      · simp [strip, hij, lookup]
      · simp [strip, hij, lookup, honly j (Ne.symm hij)]
  · rw [heq]

theorem Canon.collapse (h : ∀ i, Canon n (cs i)) (hne : ∃ i, cs i ≠ .empty) :
    Canon (n + 1) (Tree.collapse cs) ∧ Tree.collapse cs ≠ .empty := by
  obtain ⟨i, hi, -, heq⟩ | ⟨⟨i, j, hij, hi, hj⟩, heq⟩ := collapse_cases cs hne
  · rw [heq]
    refine ⟨?_, fun hempty => hi (join_eq_empty.1 hempty)⟩
    have hjoin := (h i).join (List.cons_ne_nil i [])
    rwa [List.length_singleton, Nat.add_comm] at hjoin
  · rw [heq]
    exact ⟨.branch hij hi hj h, by simp⟩

theorem Canon.exists_update_ne {i j c : α} (hij : i ≠ j) (hi : cs i ≠ .empty) (hj : cs j ≠ .empty) (t : Tree α V) :
    ∃ x, Function.update cs c t x ≠ .empty := by
  by_cases hic : i = c
  · exact ⟨j, by rwa [Function.update_of_ne (hic ▸ hij.symm)]⟩
  · exact ⟨i, by rwa [Function.update_of_ne hic]⟩

theorem Canon.remove (h : Canon n t) (p : List α) : Canon n (t.remove p) := by
  induction h generalizing p with
  | empty => exact .empty
  | leaf hk =>
    rw [Tree.remove]
    split
    · exact .empty
    · exact .leaf hk
  | @ext n k cs hk hc ih =>
    rw [Tree.remove]
    cases strip k p with
    | none => exact .ext hk hc
    | some q => exact (ih q).join hk
  | @branch n cs i j hij hi hj hcs ih =>
    cases p with
    | nil => exact .branch hij hi hj hcs
    | cons c p =>
      refine (Canon.collapse (fun x => ?_) (Canon.exists_update_ne hij hi hj _)).1
      by_cases hx : x = c
      · rw [hx, Function.update_self]
        exact ih c p
      · rw [Function.update_of_ne hx]
        exact hcs x

theorem Canon.remove_branch_ne (h : Canon n (.branch cs)) (p : List α) : (Tree.branch cs).remove p ≠ .empty := by
  cases h with
  | @branch n _ i j hij hi hj hcs =>
    cases p with
    | nil => simp [Tree.remove]
    | cons c p =>
      refine (Canon.collapse (n := n) (fun x => ?_) (Canon.exists_update_ne hij hi hj _)).2
      by_cases hx : x = c
      · rw [hx, Function.update_self]
        exact (hcs c).remove p
      · rw [Function.update_of_ne hx]
        exact hcs x

/-- Removing clears one key and keeps the others. -/
theorem Canon.lookup_remove (h : Canon n t) (p q : List α) :
    (t.remove p).lookup q = if q = p then none else t.lookup q := by
  induction h generalizing p q with
  | empty => simp [Tree.remove, lookup]
  | @leaf n k v hk =>
    rw [Tree.remove]
    split
    case isTrue heq =>
      subst heq
      by_cases hq : q = p <;> simp [lookup, hq]
    case isFalse hne =>
      by_cases hq : q = p
      · subst hq
        simp [lookup, hne]
      · simp [hq]
  | @ext n k cs hk hc ih =>
    rw [Tree.remove]
    cases hp : strip k p with
    | none =>
      by_cases hq : q = p
      · subst hq
        simp [lookup, hp]
      · simp [hq]
    | some p' =>
      obtain rfl := strip_eq_some.1 hp
      simp only [Option.elim_some, lookup_join, lookup]
      cases hq : strip k q with
      | none => simp
      | some q' =>
        obtain rfl := strip_eq_some.1 hq
        rw [Option.bind_some, Option.bind_some, ih]
        simp only [List.append_cancel_left_eq]
  | @branch n cs i j hij hi hj hcs ih =>
    cases p with
    | nil =>
      rw [Tree.remove]
      cases q <;> simp [lookup]
    | cons c p =>
      rw [Tree.remove, lookup_collapse (Canon.exists_update_ne hij hi hj _)]
      cases q with
      | nil => simp [lookup]
      | cons d q =>
        simp only [lookup, List.cons.injEq]
        by_cases hd : d = c
        · subst hd
          rw [Function.update_self, ih]
          simp
        · simp [Function.update_of_ne hd, hd]

theorem Canon.remove_of_lookup (h : Canon n t) (hp : t.lookup p = none) : t.remove p = t := by
  refine (h.remove p).unique h fun q => ?_
  rw [h.lookup_remove]
  split
  case isTrue heq => rw [heq, hp]
  case isFalse => rfl

end Remove

section Sub

variable {t : Tree α V} {k p q : List α}

@[simp] theorem sub_nil (t : Tree α V) : t.sub [] = t := by
  cases t <;> rfl

@[simp] theorem sub_empty (p : List α) : (empty : Tree α V).sub p = empty := rfl

theorem sub_leaf {v : V} (hp : p ≠ []) : (leaf k v).sub p = empty := if_neg hp

theorem sub_ext (hp : p ≠ []) : (ext k t).sub p = (strip k p).elim empty t.sub := if_neg hp

theorem sub_ext_append (hk : k ≠ []) : (ext k t).sub (k ++ q) = t.sub q := by
  rw [sub_ext (by simp [hk]), strip_append]
  rfl

theorem sub_append (hne : t.sub p ≠ empty) : t.sub (p ++ q) = (t.sub p).sub q := by
  induction t generalizing p with
  | empty => exact absurd rfl hne
  | leaf k v =>
    by_cases hp : p = []
    · rw [hp, List.nil_append, sub_nil]
    · exact absurd (sub_leaf hp) hne
  | ext k c ih =>
    by_cases hp : p = []
    · rw [hp, List.nil_append, sub_nil]
    · rw [sub_ext hp] at hne ⊢
      rw [sub_ext (by simp [hp])]
      cases hs : strip k p with
      | none =>
        rw [hs] at hne
        exact absurd rfl hne
      | some r =>
        rw [hs] at hne
        obtain rfl := strip_eq_some.1 hs
        rw [List.append_assoc, strip_append]
        exact ih hne
  | branch cs ih =>
    cases p with
    | nil => rw [List.nil_append, sub_nil]
    | cons i p => exact ih i hne

end Sub

section Entries

def shared : List (List α) → List α
  | [] => []
  | [p] => p
  | p :: q :: ps => (split p (shared (q :: ps))).1

def under (i : α) (es : List (List α × V)) : List (List α × V) :=
  es.filterMap fun e => (strip [i] e.1).map fun p => (p, e.2)

/-- The tree of a list of entries, straight from the definition: no entry is the empty tree, one a leaf,
and several part into a branch below the start they share. The number bounds the length of keys. -/
def ofEntries : Nat → List (List α × V) → Tree α V
  | _, [] => empty
  | _, [e] => leaf e.1 e.2
  | 0, _ => empty
  | n + 1, es =>
    let k := shared (es.map Prod.fst)
    wrap k (branch fun i => ofEntries n (under i (es.map fun e => (e.1.drop k.length, e.2))))

variable {n : Nat} {es : List (List α × V)}

theorem split_fst_prefixes (k p : List α) : (∃ q, k = (split k p).1 ++ q) ∧ ∃ q, p = (split k p).1 ++ q :=
  ⟨⟨_, split_left k p⟩, ⟨_, split_right k p⟩⟩

variable {k p s : List α}

theorem le_split (hk : ∃ q, k = s ++ q) (hp : ∃ q, p = s ++ q) :
    ∃ q, (split k p).1 = s ++ q := by
  induction s generalizing k p with
  | nil => exact ⟨_, rfl⟩
  | cons a s ih =>
    obtain ⟨x, rfl⟩ := hk
    obtain ⟨y, rfl⟩ := hp
    obtain ⟨q, hq⟩ := ih ⟨x, rfl⟩ ⟨y, rfl⟩
    exact ⟨q, by simp [split, hq]⟩

variable {ps : List (List α)}

theorem shared_le (hp : p ∈ ps) : ∃ q, p = shared ps ++ q := by
  induction ps with
  | nil => cases hp
  | cons r ps ih =>
    cases ps with
    | nil =>
      cases List.mem_singleton.1 hp
      exact ⟨[], (List.append_nil p).symm⟩
    | cons r' ps =>
      obtain ⟨hleft, x, hx⟩ := split_fst_prefixes r (shared (r' :: ps))
      rcases List.mem_cons.1 hp with rfl | hp
      · exact hleft
      · obtain ⟨q, hq⟩ := ih hp
        exact ⟨x ++ q, by rw [← List.append_assoc, shared, ← hx]; exact hq⟩

theorem le_shared (hne : ps ≠ []) (h : ∀ p ∈ ps, ∃ q, p = s ++ q) :
    ∃ q, shared ps = s ++ q := by
  induction ps with
  | nil => exact absurd rfl hne
  | cons r ps ih =>
    cases ps with
    | nil => exact h r List.mem_cons_self
    | cons r' ps =>
      exact le_split (h r List.mem_cons_self)
        (ih (by simp) fun p hp => h p (List.mem_cons_of_mem _ hp))

variable {v : V}

theorem mem_under {i : α} : (p, v) ∈ under i es ↔ (i :: p, v) ∈ es := by
  simp only [under, List.mem_filterMap, Option.map_eq_some_iff, Prod.mk.injEq]
  constructor
  · rintro ⟨⟨k, w⟩, hmem, q, hq, rfl, rfl⟩
    have hk : k = [i] ++ q := strip_eq_some.1 hq
    rw [hk] at hmem
    exact hmem
  · intro hmem
    exact ⟨(i :: p, v), hmem, p, by simp [strip], rfl, rfl⟩

/-- What `ofEntries` needs: keys of one length, each given once. -/
structure Keyed (n : Nat) (es : List (List α × V)) : Prop where
  length : ∀ e ∈ es, e.1.length = n
  nodup : (es.map Prod.fst).Nodup

theorem Keyed.under (h : Keyed (n + 1) es) (i : α) : Keyed n (Tree.under i es) where
  length e he := by
    obtain ⟨p, v⟩ := e
    simpa using h.length _ (mem_under.1 he)
  nodup := by
    have hsub : (Tree.under i es).map Prod.fst = (es.map Prod.fst).filterMap (strip [i]) := by
      rw [Tree.under, List.map_filterMap, List.filterMap_map]
      congr 1
      funext e
      simp [Function.comp_def]
    rw [hsub]
    refine h.nodup.filterMap fun p q r hp hq => ?_
    rw [strip_eq_some.1 hp, strip_eq_some.1 hq]

omit [DecidableEq α] in
theorem Keyed.drop (h : Keyed n es) (hk : ∀ e ∈ es, ∃ q, e.1 = k ++ q) :
    Keyed (n - k.length) (es.map fun e => (e.1.drop k.length, e.2)) where
  length e he := by
    obtain ⟨f, hf, rfl⟩ := List.mem_map.1 he
    rw [List.length_drop, h.length f hf]
  nodup := by
    rw [List.map_map]
    have hmap : es.map (Prod.fst ∘ fun e => (e.1.drop k.length, e.2)) = (es.map Prod.fst).map (List.drop k.length) := by
      rw [List.map_map]
      rfl
    rw [hmap]
    refine h.nodup.map_on fun p hp q hq heq => ?_
    obtain ⟨e, he, rfl⟩ := List.mem_map.1 hp
    obtain ⟨f, hf, rfl⟩ := List.mem_map.1 hq
    obtain ⟨x, hx⟩ := hk e he
    obtain ⟨y, hy⟩ := hk f hf
    rw [hx, hy, List.drop_left, List.drop_left] at heq
    rw [hx, hy, heq]

omit [DecidableEq α] in
theorem mem_map_drop (hk : ∀ e ∈ es, ∃ q, e.1 = k ++ q) :
    (p, v) ∈ (es.map fun e => (e.1.drop k.length, e.2)) ↔ (k ++ p, v) ∈ es := by
  simp only [List.mem_map, Prod.mk.injEq]
  constructor
  · rintro ⟨⟨q, w⟩, hmem, rfl, rfl⟩
    obtain ⟨r, hr⟩ := hk _ hmem
    rw [show q = k ++ r from hr, List.drop_left]
    exact hr ▸ hmem
  · intro hmem
    exact ⟨_, hmem, List.drop_left, rfl⟩

/-- Several entries part after the start they share. -/
theorem Keyed.parts (h : Keyed n es) (htwo : 2 ≤ es.length) :
    ∃ m i j p q v w, n = (shared (es.map Prod.fst)).length + (m + 1) ∧ i ≠ j ∧
      (shared (es.map Prod.fst) ++ i :: p, v) ∈ es ∧ (shared (es.map Prod.fst) ++ j :: q, w) ∈ es := by
  have hle : ∀ e ∈ es, ∃ q, e.1 = shared (es.map Prod.fst) ++ q := fun e he =>
    shared_le (List.mem_map_of_mem he)
  generalize hk : shared (es.map Prod.fst) = k at hle ⊢
  match es, htwo with
  | e :: f :: rest, _ =>
    obtain ⟨x, hx⟩ := hle e (by simp)
    obtain ⟨y, hy⟩ := hle f (by simp)
    have hne : e.1 ≠ f.1 := by
      have := h.nodup
      simp only [List.map_cons, List.nodup_cons, List.mem_cons, not_or] at this
      exact this.1.1
    have hlen : ∀ {g : List α × V} {z : List α}, g ∈ e :: f :: rest → g.1 = k ++ z → k.length + z.length = n := by
      intro g z hg hz
      rw [← h.length g hg, hz, List.length_append]
    have hxlen := hlen (by simp) hx
    have hylen := hlen (by simp) hy
    cases x with
    | nil =>
      have hynil : y = [] := List.length_eq_zero_iff.1 (by simp only [List.length_nil] at hxlen; omega)
      exact absurd (by rw [hx, hy, hynil]) hne
    | cons i p =>
      -- some entry does not go on with `i`, or the shared start would be longer
      have hother : ∃ g ∈ e :: f :: rest, ∀ q, g.1 ≠ k ++ i :: q := by
        by_contra hall
        push Not at hall
        obtain ⟨q, hq⟩ : ∃ q, shared ((e :: f :: rest).map Prod.fst) = (k ++ [i]) ++ q := le_shared (by simp) (by
          intro r hr
          obtain ⟨g, hg, rfl⟩ := List.mem_map.1 hr
          obtain ⟨q, hq⟩ := hall g hg
          exact ⟨q, by simpa using hq⟩)
        have := congrArg List.length (hk.symm.trans hq)
        simp only [List.length_append, List.length_singleton] at this
        omega
      obtain ⟨g, hg, hgi⟩ := hother
      obtain ⟨z, hz⟩ := hle g hg
      have hzlen := hlen hg hz
      cases z with
      | nil => simp only [List.length_cons, List.length_nil] at hxlen hzlen; omega
      | cons j q =>
        refine ⟨p.length, i, j, p, q, e.2, g.2, by rw [← hxlen]; rfl, ?_, ?_, ?_⟩
        · rintro rfl
          exact hgi q hz
        · rw [← hx]
          exact List.mem_cons_self
        · rw [← hz]
          exact hg

/-- The tree of a list of entries is canonical and holds them. -/
theorem ofEntries_spec {fuel : Nat} (hn : n ≤ fuel) (h : Keyed n es) :
    Canon n (ofEntries fuel es) ∧ ∀ p v, (ofEntries fuel es).lookup p = some v ↔ (p, v) ∈ es := by
  induction fuel generalizing n es with
  | zero =>
    match es with
    | [] => exact ⟨.empty, by simp [ofEntries, lookup]⟩
    | [e] =>
      refine ⟨.leaf (h.length e (by simp)), fun p v => ?_⟩
      obtain ⟨k, w⟩ := e
      simp [ofEntries, lookup, eq_comm]
    | e :: f :: rest =>
      obtain ⟨m, -, -, -, -, -, -, hm, -⟩ := h.parts (by simp)
      omega
  | succ fuel ih =>
    match es with
    | [] => exact ⟨.empty, by simp [ofEntries, lookup]⟩
    | [e] =>
      refine ⟨.leaf (h.length e (by simp)), fun p v => ?_⟩
      obtain ⟨k, w⟩ := e
      simp [ofEntries, lookup, eq_comm]
    | e :: f :: rest =>
      obtain ⟨m, i, j, p, q, v, w, hm, hij, hp, hq⟩ := h.parts (by simp)
      have hle : ∀ g ∈ e :: f :: rest, ∃ q, g.1 = shared ((e :: f :: rest).map Prod.fst) ++ q := fun g hg =>
        shared_le (List.mem_map_of_mem hg)
      simp only [ofEntries]
      generalize shared ((e :: f :: rest).map Prod.fst) = k at hm hp hq hle ⊢
      have hdrop := h.drop hle
      have hkey : n - k.length = m + 1 := by omega
      rw [hkey] at hdrop
      have hchild := fun x => ih (n := m) (by omega) (hdrop.under x)
      have hmem : ∀ x r y, (ofEntries fuel (under x ((e :: f :: rest).map fun e => (e.1.drop k.length, e.2)))).lookup r =
          some y ↔ (k ++ x :: r, y) ∈ e :: f :: rest := by
        intro x r y
        rw [(hchild x).2, mem_under, mem_map_drop hle]
      have hne : ∀ {x r y}, (k ++ x :: r, y) ∈ e :: f :: rest →
          ofEntries fuel (under x ((e :: f :: rest).map fun e => (e.1.drop k.length, e.2))) ≠ empty := by
        intro x r y hy hempty
        have := (hmem x r y).2 hy
        rw [hempty] at this
        cases this
      refine ⟨?_, fun r y => ?_⟩
      · rw [hm]
        exact Canon.wrap (.branch hij (hne hp) (hne hq) fun x => (hchild x).1) k
      · rw [lookup_wrap]
        constructor
        · intro hr
          obtain ⟨z, hz, hy⟩ := Option.bind_eq_some_iff.1 hr
          cases z with
          | nil => cases hy
          | cons x z =>
            rw [strip_eq_some.1 hz]
            exact (hmem x z y).1 hy
        · intro hr
          obtain ⟨z, hz⟩ := hle _ hr
          have hlen := h.length _ hr
          simp only at hz hlen
          subst hz
          rw [strip_append, Option.bind_some]
          cases z with
          | nil => rw [List.append_nil] at hlen; omega
          | cons x z => exact (hmem x z y).2 hr

end Entries

end Tree

end Boltchain.Lib.Patricia
