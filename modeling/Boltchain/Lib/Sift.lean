import Mathlib

namespace Boltchain.Lib.Sift

/-- What is said of an item: it is kept, and changes what the next items are judged by, it is
refused, or it is not judged here. -/
inductive Verdict (A R : Type) where
  | keep (a : A)
  | refuse (r : R)
  | pass

structure Sifted (A X R : Type) where
  acc : A
  kept : List X
  refused : List (X × R)
  passed : List X

variable {A X R ε : Type}

section

variable (stop : A → Bool) (judge : A → X → Except ε (Verdict A R)) (strict : Bool) (refuse : R → ε)

/-- Judges the items in turn. A strict run fails at the first refused item; any other skips it, and
may stop early. -/
def sift : List X → A → Except ε (Sifted A X R)
  | [], a => .ok ⟨a, [], [], []⟩
  | x :: xs, a =>
    if !strict && stop a then .ok ⟨a, [], [], []⟩
    else
      match judge a x with
      | .error e => .error e
      | .ok (.keep a') => (sift xs a').map fun s => { s with kept := x :: s.kept }
      | .ok (.refuse r) =>
        if strict then .error (refuse r)
        else (sift xs a).map fun s => { s with refused := (x, r) :: s.refused }
      | .ok .pass => (sift xs a).map fun s => { s with passed := x :: s.passed }

end

variable {stop : A → Bool} {judge : A → X → Except ε (Verdict A R)} {strict : Bool} {refuse : R → ε}
  {xs : List X} {a : A} {s : Sifted A X R}

private theorem sift_map_eq_ok {x : Except ε (Sifted A X R)} {f : Sifted A X R → Sifted A X R}
    (h : x.map f = .ok s) : ∃ t, x = .ok t ∧ s = f t := by
  cases x with
  | error e => cases h
  | ok t => cases h; exact ⟨t, rfl, rfl⟩

theorem sift_cons {x : X} (h : sift stop judge strict refuse (x :: xs) a = .ok s) :
    (strict = false ∧ s = ⟨a, [], [], []⟩) ∨
    (∃ a' t, judge a x = .ok (.keep a') ∧ sift stop judge strict refuse xs a' = .ok t ∧
      s = { t with kept := x :: t.kept }) ∨
    (∃ r t, judge a x = .ok (.refuse r) ∧ strict = false ∧ sift stop judge strict refuse xs a = .ok t ∧
      s = { t with refused := (x, r) :: t.refused }) ∨
    (∃ t, judge a x = .ok .pass ∧ sift stop judge strict refuse xs a = .ok t ∧
      s = { t with passed := x :: t.passed }) := by
  rw [sift] at h
  split at h
  case isTrue hstop =>
    cases h
    exact .inl ⟨by simpa using (Bool.and_eq_true_iff.1 hstop).1, rfl⟩
  case isFalse =>
    split at h
    case h_1 => cases h
    case h_2 a' hj =>
      obtain ⟨t, ht, rfl⟩ := sift_map_eq_ok h
      exact .inr (.inl ⟨a', t, hj, ht, rfl⟩)
    case h_3 r hj =>
      split at h
      case isTrue => cases h
      case isFalse hs =>
        obtain ⟨t, ht, rfl⟩ := sift_map_eq_ok h
        exact .inr (.inr (.inl ⟨r, t, hj, by simpa using hs, ht, rfl⟩))
    case h_4 hj =>
      obtain ⟨t, ht, rfl⟩ := sift_map_eq_ok h
      exact .inr (.inr (.inr ⟨t, hj, ht, rfl⟩))

theorem sift_strict_keep {x : X} {a' : A} (h : judge a x = .ok (.keep a')) :
    sift stop judge true refuse (x :: xs) a =
      (sift stop judge true refuse xs a').map fun s => { s with kept := x :: s.kept } := by
  simp [sift, h]

theorem sift_strict_pass (h : ∀ x ∈ xs, judge a x = .ok .pass) :
    sift stop judge true refuse xs a = .ok ⟨a, [], [], xs⟩ := by
  induction xs with
  | nil => rfl
  | cons x xs ih =>
    rw [sift, h x List.mem_cons_self, ih fun y hy => h y (List.mem_cons_of_mem _ hy)]
    rfl

theorem sift_kept (h : sift stop judge strict refuse xs a = .ok s) {ys : List X}
    (hys : ∀ y ∈ ys, ∀ a, judge a y = .ok .pass) :
    sift stop judge true refuse (s.kept ++ ys) a = .ok ⟨s.acc, s.kept, [], ys⟩ := by
  induction xs generalizing a s with
  | nil =>
    cases h
    exact sift_strict_pass fun y hy => hys y hy a
  | cons x xs ih =>
    obtain ⟨-, rfl⟩ | ⟨a', t, hj, ht, rfl⟩ | ⟨r, t, -, -, ht, rfl⟩ | ⟨t, -, ht, rfl⟩ := sift_cons h
    · exact sift_strict_pass fun y hy => hys y hy a
    · rw [List.cons_append, sift_strict_keep hj, ih ht]
      rfl
    · have hrest := ih ht
      exact hrest
    · have hrest := ih ht
      exact hrest

theorem sift_subset (h : sift stop judge strict refuse xs a = .ok s) : s.kept ⊆ xs ∧ s.passed ⊆ xs := by
  induction xs generalizing a s with
  | nil => cases h; exact ⟨List.Subset.refl _, List.Subset.refl _⟩
  | cons x xs ih =>
    obtain ⟨-, rfl⟩ | ⟨a', t, -, ht, rfl⟩ | ⟨r, t, -, -, ht, rfl⟩ | ⟨t, -, ht, rfl⟩ := sift_cons h
    · exact ⟨List.nil_subset _, List.nil_subset _⟩
    · exact ⟨List.cons_subset_cons x (ih ht).1, List.subset_cons_of_subset _ (ih ht).2⟩
    · exact ⟨List.subset_cons_of_subset _ (ih ht).1, List.subset_cons_of_subset _ (ih ht).2⟩
    · exact ⟨List.subset_cons_of_subset _ (ih ht).1, List.cons_subset_cons x (ih ht).2⟩

theorem sift_passed (h : sift stop judge strict refuse xs a = .ok s) :
    ∀ x ∈ s.passed, ∃ a, judge a x = .ok .pass := by
  induction xs generalizing a s with
  | nil => cases h; simp
  | cons x xs ih =>
    obtain ⟨-, rfl⟩ | ⟨a', t, -, ht, rfl⟩ | ⟨r, t, -, -, ht, rfl⟩ | ⟨t, hj, ht, rfl⟩ := sift_cons h
    · simp
    · have hrest := ih ht
      exact hrest
    · have hrest := ih ht
      exact hrest
    · exact List.forall_mem_cons.2 ⟨⟨a, hj⟩, ih ht⟩

theorem sift_acc {Y : Type} {g : A → List Y} {f : X → Y}
    (hkeep : ∀ a x a', judge a x = .ok (.keep a') → g a' = g a ++ [f x])
    (h : sift stop judge strict refuse xs a = .ok s) : g s.acc = g a ++ s.kept.map f := by
  induction xs generalizing a s with
  | nil => cases h; simp
  | cons x xs ih =>
    obtain ⟨-, rfl⟩ | ⟨a', t, hj, ht, rfl⟩ | ⟨r, t, -, -, ht, rfl⟩ | ⟨t, -, ht, rfl⟩ := sift_cons h
    · simp
    · have hrest := ih ht
      simpa [hkeep a x a' hj] using hrest
    · have hrest := ih ht
      exact hrest
    · have hrest := ih ht
      exact hrest

theorem sift_strict (h : sift stop judge true refuse xs a = .ok s) {p : X → Bool}
    (hp : ∀ a x, p x = true ↔ judge a x = .ok .pass) :
    s.kept = xs.filter (fun x => !p x) ∧ s.passed = xs.filter p := by
  induction xs generalizing a s with
  | nil => cases h; exact ⟨rfl, rfl⟩
  | cons x xs ih =>
    obtain ⟨hs, -⟩ | ⟨a', t, hj, ht, rfl⟩ | ⟨r, t, -, hs, -⟩ | ⟨t, hj, ht, rfl⟩ := sift_cons h
    · cases hs
    · have hx : p x = false := by
        rw [Bool.eq_false_iff, Ne, hp a x, hj]
        simp
      simp [hx, ih ht]
    · cases hs
    · simp [(hp a x).2 hj, ih ht]

end Boltchain.Lib.Sift
