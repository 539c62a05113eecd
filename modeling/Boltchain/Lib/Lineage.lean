import Mathlib

namespace Boltchain.Lib.Lineage

variable {α : Type} [DecidableEq α] (parent : α → Option α)

/-- Recorded elements, those with a parent, from `cur` up, after `path`. The walk ends where another has passed. -/
def walk (chosen : List α) : Nat → α → List α → List α
  | 0, _, path => path
  | fuel + 1, cur, path =>
    match parent cur with
    | none => path
    | some p => if cur ∈ chosen ∨ cur ∈ path then path else walk chosen fuel p (path ++ [cur])

/-- The wanted elements that are recorded, with their recorded ancestors. -/
def collect (fuel : Nat) (wanted : List α) : List α :=
  wanted.foldl (fun chosen w => chosen ++ walk parent chosen fuel w []) []

def Closed (l : List α) : Prop := ∀ a ∈ l, ∀ p, parent a = some p → (parent p).isSome = true → p ∈ l

variable {parent} {keys : List α}

structure Path (parent : α → Option α) (chosen : List α) (cur : α) (path : List α) : Prop where
  nodup : path.Nodup
  fresh : ∀ a ∈ path, a ∉ chosen
  recorded : ∀ a ∈ path, (parent a).isSome = true
  linked : ∀ a ∈ path, ∀ p, parent a = some p → (parent p).isSome = true → p ∈ chosen ∨ p ∈ path ∨ p = cur

structure Walked (parent : α → Option α) (chosen : List α) (cur : α) (l : List α) : Prop where
  nodup : l.Nodup
  fresh : ∀ a ∈ l, a ∉ chosen
  recorded : ∀ a ∈ l, (parent a).isSome = true
  closed : ∀ a ∈ l, ∀ p, parent a = some p → (parent p).isSome = true → p ∈ chosen ∨ p ∈ l
  reached : (parent cur).isSome = true → cur ∈ chosen ∨ cur ∈ l

variable {chosen path : List α} {cur : α} {fuel : Nat}

theorem walk_subset : path ⊆ walk parent chosen fuel cur path := by
  induction fuel generalizing cur path with
  | zero => exact List.Subset.refl _
  | succ fuel ih =>
    unfold walk
    split
    · exact List.Subset.refl _
    · split
      · exact List.Subset.refl _
      · exact fun a ha => ih (List.mem_append_left _ ha)

/-- As many steps as there are recorded elements are enough, since the walk never comes back. -/
theorem walked (hkeys : ∀ a, (parent a).isSome = true → a ∈ keys)
    (hfuel : keys.length < fuel + path.length) (h : Path parent chosen cur path) :
    Walked parent chosen cur (walk parent chosen fuel cur path) := by
  induction fuel generalizing cur path with
  | zero =>
    have hle := (List.subperm_of_subset h.nodup fun a ha => hkeys a (h.recorded a ha)).length_le
    omega
  | succ fuel ih =>
    unfold walk
    split
    case h_1 hnone =>
      refine ⟨h.nodup, h.fresh, h.recorded, fun a ha p hp hsome => ?_, fun hsome => ?_⟩
      · rcases h.linked a ha p hp hsome with hc | hc | rfl
        · exact .inl hc
        · exact .inr hc
        · rw [hnone] at hsome
          cases hsome
      · rw [hnone] at hsome
        cases hsome
    case h_2 q hq =>
      split
      case isTrue hstop =>
        refine ⟨h.nodup, h.fresh, h.recorded, fun a ha p hp hsome => ?_, fun _ => hstop⟩
        rcases h.linked a ha p hp hsome with hc | hc | rfl
        · exact .inl hc
        · exact .inr hc
        · exact hstop
      case isFalse hgo =>
        rw [not_or] at hgo
        have hnext : Path parent chosen q (path ++ [cur]) := by
          refine ⟨?_, fun a ha => ?_, fun a ha => ?_, fun a ha p hp hsome => ?_⟩
          · exact List.nodup_append.2 ⟨h.nodup, List.nodup_singleton cur, fun a ha b hb hab => hgo.2
              (List.mem_singleton.1 hb ▸ hab ▸ ha)⟩
          · rcases List.mem_append.1 ha with ha | ha
            · exact h.fresh a ha
            · exact List.mem_singleton.1 ha ▸ hgo.1
          · rcases List.mem_append.1 ha with ha | ha
            · exact h.recorded a ha
            · rw [List.mem_singleton.1 ha, hq]
              rfl
          · rcases List.mem_append.1 ha with ha | ha
            · rcases h.linked a ha p hp hsome with hc | hc | rfl
              · exact .inl hc
              · exact .inr (.inl (List.mem_append_left _ hc))
              · exact .inr (.inl (List.mem_append_right _ List.mem_cons_self))
            · rw [List.mem_singleton.1 ha, hq] at hp
              exact .inr (.inr (Option.some_inj.1 hp).symm)
        have hwalk := ih (by rw [List.length_append, List.length_singleton]; omega) hnext
        exact ⟨hwalk.nodup, hwalk.fresh, hwalk.recorded, hwalk.closed,
          fun _ => .inr (walk_subset (List.mem_append_right _ List.mem_cons_self))⟩

structure Collected (parent : α → Option α) (wanted l : List α) : Prop where
  nodup : l.Nodup
  recorded : ∀ a ∈ l, (parent a).isSome = true
  closed : Closed parent l
  wanted : ∀ w ∈ wanted, (parent w).isSome = true → w ∈ l

theorem collected (hkeys : ∀ a, (parent a).isSome = true → a ∈ keys) (hfuel : keys.length < fuel)
    (wanted : List α) : Collected parent wanted (collect parent fuel wanted) := by
  induction wanted using List.reverseRecOn with
  | nil => exact ⟨List.nodup_nil, by simp [collect], fun a ha => (by cases ha), by simp⟩
  | append_singleton wanted w ih =>
    have hstart : Path parent (collect parent fuel wanted) w [] := ⟨List.nodup_nil, by simp, by simp, by simp⟩
    have hw := walked hkeys (by simpa using hfuel) hstart
    have hstep : collect parent fuel (wanted ++ [w]) =
        collect parent fuel wanted ++ walk parent (collect parent fuel wanted) fuel w [] := by
      simp [collect, List.foldl_append]
    rw [hstep]
    refine ⟨?_, fun a ha => ?_, fun a ha p hp hsome => ?_, fun v hv hsome => ?_⟩
    · exact List.nodup_append.2 ⟨ih.nodup, hw.nodup, fun a ha b hb hab => hw.fresh b hb (hab ▸ ha)⟩
    · exact (List.mem_append.1 ha).elim (ih.recorded a) (hw.recorded a)
    · rcases List.mem_append.1 ha with ha | ha
      · exact List.mem_append_left _ (ih.closed a ha p hp hsome)
      · exact List.mem_append.2 (hw.closed a ha p hp hsome)
    · rcases List.mem_append.1 hv with hv | hv
      · exact List.mem_append_left _ (ih.wanted v hv hsome)
      · obtain rfl := List.mem_singleton.1 hv
        exact List.mem_append.2 (hw.reached hsome)

end Boltchain.Lib.Lineage
