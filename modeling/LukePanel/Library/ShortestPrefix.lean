import Mathlib.Data.Nat.Notation

/-! # Taking from the front until the rest will do

What a loop takes that goes on while a condition does not hold of the elements that are left. -/
namespace LukePanel.Library.ShortestPrefix

variable {α : Type} {P : List α → Prop} {l : List α} {k : ℕ}

/-- The rest behind `k` elements has the property, and behind fewer it has not. -/
structure Shortest (P : List α → Prop) (l : List α) (k : ℕ) : Prop where
  le : k ≤ l.length
  rest : P (l.drop k)
  shortest : ∀ j < k, ¬ P (l.drop j)

theorem shortest_zero (h : P l) : Shortest P l 0 :=
  ⟨Nat.zero_le _, h, fun _ hj => absurd hj (Nat.not_lt_zero _)⟩

theorem Shortest.cons {a : α} (h : Shortest P l k) (ha : ¬ P (a :: l)) :
    Shortest P (a :: l) (k + 1) := by
  refine ⟨Nat.succ_le_succ h.le, h.rest, fun j hj => ?_⟩
  cases j with
  | zero => exact ha
  | succ j => exact h.shortest j (Nat.lt_of_succ_lt_succ hj)

theorem Shortest.le_of {j : ℕ} (h : Shortest P l k) (hj : P (l.drop j)) : k ≤ j :=
  Nat.not_lt.mp fun hlt => h.shortest j hlt hj

/-- The loop. -/
def taken (P : List α → Prop) [DecidablePred P] : List α → List α
  | [] => []
  | a :: l => if P (a :: l) then [] else a :: taken P l

/-- A loop that has to stop at the end takes the shortest prefix that will do. -/
theorem taken_shortest [DecidablePred P] (hnil : P []) (l : List α) :
    ∃ k, taken P l = l.take k ∧ Shortest P l k := by
  induction l with
  | nil => exact ⟨0, rfl, shortest_zero hnil⟩
  | cons a l ih =>
    rw [taken]
    by_cases ha : P (a :: l)
    · rw [if_pos ha]
      exact ⟨0, rfl, shortest_zero ha⟩
    · obtain ⟨k, htaken, hk⟩ := ih
      rw [if_neg ha, htaken]
      exact ⟨k + 1, rfl, hk.cons ha⟩

/-- The last element stays if the property holds of it alone. -/
theorem Shortest.last_stays {older : List α} {a : α} (h : Shortest P (older ++ [a]) k) (ha : P [a])
    (hnot : a ∉ older) : a ∉ (older ++ [a]).take k := by
  have hle : k ≤ older.length := h.le_of (by rwa [List.drop_left])
  rw [List.take_append_of_le_length hle]
  exact fun hmem => hnot (List.mem_of_mem_take hmem)

end LukePanel.Library.ShortestPrefix
