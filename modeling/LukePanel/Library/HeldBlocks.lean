import Mathlib.Data.List.Basic

/-! # Data cut into blocks, the last one held back

A hash that treats its last block unlike the others cannot compress a full block before more
data come. `cut B data` are the blocks of `B` elements that have something behind them, and the
rest, which is empty only for no data. -/
namespace LukePanel.Library.HeldBlocks

variable {α σ : Type*} {B : Nat} {data rest : List α} {blocks : List (List α)}

def cut (B : Nat) (data : List α) : List (List α) × List α :=
  if _h : B = 0 ∨ data.length ≤ B then ([], data)
  else
    let later := cut B (data.drop B)
    (data.take B :: later.1, later.2)
termination_by data.length
decreasing_by
  rw [List.length_drop]
  omega

theorem cut_of_le (h : data.length ≤ B) : cut B data = ([], data) := by
  rw [cut, dif_pos (Or.inr h)]

theorem cut_of_lt (hB : 0 < B) (h : B < data.length) :
    cut B data = (data.take B :: (cut B (data.drop B)).1, (cut B (data.drop B)).2) := by
  rw [cut, dif_neg (by omega)]

/-- A block is cut off only when something follows it. -/
theorem cut_cons {block : List α} (hB : 0 < B) (hblock : block.length = B) (hdata : data ≠ []) :
    cut B (block ++ data) = (block :: (cut B data).1, (cut B data).2) := by
  have hpos := List.length_pos_of_ne_nil hdata
  rw [cut_of_lt hB (by rw [List.length_append]; omega), List.take_left' hblock,
    List.drop_left' hblock]

theorem cut_flatten (hB : 0 < B) (hblocks : ∀ b ∈ blocks, b.length = B) (hdata : data ≠ []) :
    cut B (blocks.flatten ++ data) = (blocks ++ (cut B data).1, (cut B data).2) := by
  induction blocks with
  | nil => rfl
  | cons block blocks ih =>
    obtain ⟨hblock, hblocks⟩ := List.forall_mem_cons.mp hblocks
    have hne : blocks.flatten ++ data ≠ [] := List.append_ne_nil_of_right_ne_nil _ hdata
    rw [List.flatten_cons, List.append_assoc, cut_cons hB hblock hne, ih hblocks]
    rfl

theorem flatten_cut (data : List α) : (cut B data).1.flatten ++ (cut B data).2 = data := by
  fun_induction cut B data with
  | case1 data h => rfl
  | case2 data h later ih =>
    rw [List.flatten_cons, List.append_assoc, ih, List.take_append_drop]

theorem length_of_mem_cut {block : List α} (h : block ∈ (cut B data).1) : block.length = B := by
  fun_induction cut B data with
  | case1 data h' => cases h
  | case2 data h' later ih =>
    rcases List.mem_cons.mp h with rfl | h
    · rw [List.length_take]
      omega
    · exact ih h

theorem length_flatten_cut (data : List α) :
    (cut B data).1.flatten.length = B * (cut B data).1.length := by
  fun_induction cut B data with
  | case1 data h => rfl
  | case2 data h later ih =>
    have ih : later.1.flatten.length = B * later.1.length := ih
    rw [List.flatten_cons, List.length_append, ih, List.length_take, List.length_cons, Nat.mul_succ]
    omega

theorem length_cut_le (hB : 0 < B) : (cut B data).2.length ≤ B := by
  fun_induction cut B data with
  | case1 data h => exact h.resolve_left (Nat.ne_of_gt hB)
  | case2 data h later ih => exact ih

theorem cut_ne_nil (h : data ≠ []) : (cut B data).2 ≠ [] := by
  fun_induction cut B data with
  | case1 data h' => exact h
  | case2 data h' later ih => exact ih (List.drop_eq_nil_iff.not.mpr (by omega))

/-- Data that come in two parts are cut as the second part is, behind the rest of the first. -/
theorem cut_append (hB : 0 < B) (data more : List α) :
    cut B (data ++ more) =
      ((cut B data).1 ++ (cut B ((cut B data).2 ++ more)).1, (cut B ((cut B data).2 ++ more)).2) := by
  rcases eq_or_ne data [] with rfl | hne
  · have hnil : cut B ([] : List α) = ([], []) := cut_of_le (Nat.zero_le B)
    rw [hnil]
    rfl
  · have hrest : (cut B data).2 ++ more ≠ [] := List.append_ne_nil_of_left_ne_nil (cut_ne_nil hne) _
    calc cut B (data ++ more)
        = cut B ((cut B data).1.flatten ++ ((cut B data).2 ++ more)) := by
          rw [← List.append_assoc, flatten_cut]
      _ = _ := cut_flatten hB (fun _ => length_of_mem_cut) hrest

/-- The full blocks folded into a state, beside what is held back. -/
def absorb (B : Nat) (step : σ → List α → σ) (start : σ) (data : List α) : σ × List α :=
  ((cut B data).1.foldl step start, (cut B data).2)

theorem absorb_of_le (step : σ → List α → σ) (start : σ) (h : data.length ≤ B) :
    absorb B step start data = (start, data) := by
  rw [absorb, cut_of_le h]
  rfl

theorem absorb_cons {block : List α} (hB : 0 < B) (step : σ → List α → σ) (start : σ)
    (hblock : block.length = B) (hdata : data ≠ []) :
    absorb B step start (block ++ data) = absorb B step (step start block) data := by
  rw [absorb, cut_cons hB hblock hdata]
  rfl

/-- What is absorbed in two parts is what is absorbed at once. -/
theorem absorb_append (hB : 0 < B) (step : σ → List α → σ) (start : σ) (data more : List α) :
    absorb B step start (data ++ more) =
      absorb B step (absorb B step start data).1 ((absorb B step start data).2 ++ more) := by
  simp only [absorb, cut_append hB data more, List.foldl_append]

end LukePanel.Library.HeldBlocks
