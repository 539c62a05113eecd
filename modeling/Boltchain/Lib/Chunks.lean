import Mathlib

namespace Boltchain.Lib.Chunks

variable {α : Type}

def cut (n : Nat) : List α → List (List α)
  | [] => []
  | a :: l => (a :: l.take n) :: cut n (l.drop n)
termination_by l => l.length
decreasing_by simp

def chunks (size : Nat) (l : List α) : List (List α) := cut (size - 1) l

theorem flatten_cut (n : Nat) (l : List α) : (cut n l).flatten = l := by
  induction l using cut.induct n with
  | case1 => rw [cut, List.flatten_nil]
  | case2 a l ih => rw [cut, List.flatten_cons, ih, List.cons_append, List.take_append_drop]

theorem flatten_chunks (size : Nat) (l : List α) : (chunks size l).flatten = l := flatten_cut _ l

theorem length_le_of_mem_cut {n : Nat} {l piece : List α} (h : piece ∈ cut n l) : piece.length ≤ n + 1 := by
  induction l using cut.induct n with
  | case1 =>
    rw [cut] at h
    cases h
  | case2 a l ih =>
    rw [cut] at h
    rcases List.mem_cons.1 h with rfl | hmem
    · simp
    · exact ih hmem

theorem length_le_of_mem_chunks {size : Nat} (hpos : 0 < size) {l piece : List α} (h : piece ∈ chunks size l) :
    piece.length ≤ size := by
  have hle := length_le_of_mem_cut h
  omega

end Boltchain.Lib.Chunks
