import Mathlib

namespace Boltchain.Lib.HashTree

variable {α β γ : Type}

inductive BinTree (α : Type) where
  | leaf (a : α)
  | node (l r : BinTree α)

namespace BinTree

def leaves : BinTree α → List α
  | leaf a => [a]
  | node l r => l.leaves ++ r.leaves

def value (leafOf : α → β) (nodeOf : β → β → β) : BinTree α → β
  | leaf a => leafOf a
  | node l r => nodeOf (l.value leafOf nodeOf) (r.value leafOf nodeOf)

theorem eq_of_value_eq {leafOf : α → β} {nodeOf : β → β → β} {P : α → Prop} {Q : β → β → Prop}
    (hleaf : ∀ a b, P a → P b → leafOf a = leafOf b → a = b)
    (hnode : ∀ a b c d, Q a b → Q c d → nodeOf a b = nodeOf c d → a = c ∧ b = d)
    (hmixed : ∀ a b c, P a → Q b c → leafOf a ≠ nodeOf b c) {All : BinTree α → Prop}
    (hall_leaf : ∀ a, All (leaf a) → P a)
    (hall_node : ∀ l r, All (node l r) → Q (l.value leafOf nodeOf) (r.value leafOf nodeOf) ∧ All l ∧ All r)
    {t u : BinTree α} (ht : All t) (hu : All u) (h : t.value leafOf nodeOf = u.value leafOf nodeOf) : t = u := by
  induction t generalizing u with
  | leaf a =>
    cases u with
    | leaf b => rw [hleaf a b (hall_leaf a ht) (hall_leaf b hu) h]
    | node l r => exact absurd h (hmixed _ _ _ (hall_leaf a ht) (hall_node l r hu).1)
  | node l r ihl ihr =>
    obtain ⟨hq, hl, hr⟩ := hall_node l r ht
    cases u with
    | leaf b => exact absurd h.symm (hmixed _ _ _ (hall_leaf b hu) hq)
    | node l' r' =>
      obtain ⟨hq', hl', hr'⟩ := hall_node l' r' hu
      obtain ⟨hleft, hright⟩ := hnode _ _ _ _ hq hq' h
      rw [ihl hl hl' hleft, ihr hr hr' hright]

end BinTree

def pairs (f : β → β → β) : List β → List β
  | [] => []
  | [a] => [a]
  | a :: b :: l => f a b :: pairs f l

variable {f : β → β → β}

theorem length_pairs (l : List β) : (pairs f l).length = (l.length + 1) / 2 := by
  induction l using pairs.induct with
  | case1 => simp [pairs]
  | case2 a => simp [pairs]
  | case3 a b l ih =>
    rw [pairs, List.length_cons, ih, List.length_cons, List.length_cons]
    omega

theorem getElem?_pairs (l : List β) (i : Nat) : (pairs f l)[i]? =
    match l[2 * i]?, l[2 * i + 1]? with
    | some a, some b => some (f a b)
    | x, _ => x := by
  induction l using pairs.induct generalizing i with
  | case1 => simp [pairs]
  | case2 a =>
    cases i with
    | zero => simp [pairs]
    | succ i => simp [pairs, Nat.mul_succ]
  | case3 a b l ih =>
    cases i with
    | zero => simp [pairs]
    | succ i =>
      rw [pairs, List.getElem?_cons_succ, ih, Nat.mul_succ]
      rfl

theorem leaves_pairs (ts : List (BinTree α)) : (pairs .node ts).flatMap BinTree.leaves = ts.flatMap BinTree.leaves := by
  induction ts using pairs.induct with
  | case1 => simp [pairs]
  | case2 t => simp [pairs]
  | case3 t u ts ih =>
    rw [pairs, List.flatMap_cons, List.flatMap_cons, List.flatMap_cons, ih, BinTree.leaves, List.append_assoc]

end Boltchain.Lib.HashTree
