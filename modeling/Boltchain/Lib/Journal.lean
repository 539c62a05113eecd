import Mathlib

namespace Boltchain.Lib.Journal

variable {K V : Type} [DecidableEq K]

/-- A total map after a list of writes, the last of each key counting. -/
def write (s : K → V) (changes : List (K × V)) : K → V :=
  changes.foldl (fun s c => Function.update s c.1 c.2) s

def prior (s : K → V) (changes : List (K × V)) : List (K × V) := changes.map fun c => (c.1, s c.1)

def newest (changes : List (K × V)) (k : K) : Option V := changes.reverse.lookup k

theorem write_append (s : K → V) (a b : List (K × V)) : write s (a ++ b) = write (write s a) b :=
  List.foldl_append

theorem write_concat (s : K → V) (a : List (K × V)) (c : K × V) :
    write s (a ++ [c]) = Function.update (write s a) c.1 c.2 := by
  rw [write_append]
  rfl

variable {changes : List (K × V)} {k : K} {s : K → V}

theorem write_of_notMem (h : ∀ c ∈ changes, c.1 ≠ k) :
    write s changes k = s k := by
  induction changes generalizing s with
  | nil => rfl
  | cons c changes ih =>
    have hc : c.1 ≠ k := h c List.mem_cons_self
    rw [write, List.foldl_cons, ← write, ih fun x hx => h x (List.mem_cons_of_mem _ hx),
      Function.update_of_ne hc.symm]

theorem write_of_mem {s' : K → V} (h : ∃ c ∈ changes, c.1 = k)
    (hs : ∀ c ∈ changes, c.2 = s' c.1) : write s changes k = s' k := by
  induction changes using List.reverseRecOn with
  | nil => simp at h
  | append_singleton a c ih =>
    rw [write_concat]
    by_cases hk : k = c.1
    · subst hk
      rw [Function.update_self]
      exact hs c (by simp)
    · rw [Function.update_of_ne hk]
      obtain ⟨x, hx, rfl⟩ := h
      rcases List.mem_append.1 hx with hx | hx
      · exact ih ⟨x, hx, rfl⟩ fun y hy => hs y (List.mem_append_left _ hy)
      · exact absurd (congrArg Prod.fst (List.mem_singleton.1 hx)) hk

end Boltchain.Lib.Journal
