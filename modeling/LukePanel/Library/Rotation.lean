import Mathlib.Data.Nat.Notation
import Mathlib.Logic.Function.Basic

/-! # Rotating numbered files

Slot `0` is written to, and a rotation moves what is in each slot to the next higher one. The
contents are read from the highest slot to the lowest, so a rotation leaves them as they are,
but for what was in the highest slot. -/
namespace LukePanel.Library.Rotation

variable {α : Type*}

/-- A slot is empty, or holds a file. -/
abbrev Slots (α : Type*) := ℕ → Option (List α)

/-- The contents of the slots below a number, the highest first. -/
def contents (f : Slots α) : ℕ → List α
  | 0 => []
  | n + 1 => (f n).getD [] ++ contents f n

/-- Moves the files of the slots below `n` up by one, the highest first. An empty slot is passed
over; the move that fails ends the rotation. -/
def shift (fails : ℕ → Bool) (f : Slots α) : ℕ → Slots α
  | 0 => f
  | n + 1 =>
    match f n with
    | none => shift fails f n
    | some content =>
      if fails n then f
      else shift fails (Function.update (Function.update f n none) (n + 1) (some content)) n

variable {f g : Slots α} {n : ℕ}

theorem contents_congr (h : ∀ i < n, f i = g i) : contents f n = contents g n := by
  induction n with
  | zero => rfl
  | succ n ih =>
    rw [contents, contents, h n (Nat.lt_succ_self n), ih fun i hi => h i (Nat.lt_succ_of_lt hi)]

/-- Moving a file to the empty slot above it changes no contents. -/
theorem contents_move (hfree : f (n + 1) = none) {content : List α} (hn : f n = some content)
    {m : ℕ} (hm : n + 2 ≤ m) :
    contents (Function.update (Function.update f n none) (n + 1) (some content)) m =
      contents f m := by
  induction hm with
  | refl =>
    have hbelow : contents (Function.update (Function.update f n none) (n + 1) (some content)) n =
        contents f n := by
      refine contents_congr fun i hi => ?_
      rw [Function.update_of_ne (by omega), Function.update_of_ne (by omega)]
    simp only [contents]
    rw [Function.update_self, Function.update_of_ne (by omega), Function.update_self, hfree, hn,
      hbelow]
    rfl
  | @step m hm ih =>
    have hle : n + 2 ≤ m := hm
    rw [contents, contents, ih, Function.update_of_ne (by omega), Function.update_of_ne (by omega)]

/-- Removing the highest file leaves the contents of the others. -/
theorem contents_remove_suffix (f : Slots α) (n : ℕ) :
    contents (Function.update f n none) (n + 1) <:+ contents f (n + 1) := by
  have hbelow : contents (Function.update f n none) n = contents f n :=
    contents_congr fun i hi => Function.update_of_ne (by omega) ..
  rw [contents, contents, Function.update_self, hbelow]
  exact List.suffix_append _ _

/-- A rotation into an empty slot changes no contents. -/
theorem contents_shift (fails : ℕ → Bool) (hfree : f n = none) {m : ℕ} (hm : n + 1 ≤ m) :
    contents (shift fails f n) m = contents f m := by
  induction n generalizing f m with
  | zero => rfl
  | succ n ih =>
    rw [shift]
    cases hn : f n with
    | none => exact ih hn (by omega)
    | some content =>
      cases hfails : fails n with
      | true => rfl
      | false =>
        simp only [Bool.false_eq_true, if_false]
        have hmoved : Function.update (Function.update f n none) (n + 1) (some content) n =
            none := by
          rw [Function.update_of_ne (by omega), Function.update_self]
        rw [ih hmoved (by omega)]
        exact contents_move hfree hn hm

/-- A rotation into a slot that holds a file loses at most that file. -/
theorem contents_shift_suffix (fails : ℕ → Bool) (f : Slots α) (n : ℕ) :
    contents (shift fails f n) (n + 1) <:+ contents f (n + 1) := by
  cases n with
  | zero => exact List.suffix_refl _
  | succ n =>
    rw [shift]
    cases hn : f n with
    | none => exact ⟨[], contents_shift fails hn (by omega)⟩
    | some content =>
      cases hfails : fails n with
      | true => exact List.suffix_refl _
      | false =>
        simp only [Bool.false_eq_true, if_false]
        have hmoved : Function.update (Function.update f n none) (n + 1) (some content) n =
            none := by
          rw [Function.update_of_ne (by omega), Function.update_self]
        rw [contents_shift fails hmoved (by omega)]
        -- the file that is overwritten might as well have been removed before
        have hover : Function.update (Function.update f n none) (n + 1) (some content) =
            Function.update (Function.update (Function.update f (n + 1) none) n none) (n + 1)
              (some content) := by
          rw [Function.update_comm (by omega : n + 1 ≠ n), Function.update_idem]
        have hremoved : Function.update f (n + 1) none n = some content := by
          rw [Function.update_of_ne (by omega), hn]
        rw [hover, contents_move (Function.update_self ..) hremoved (Nat.le_refl _)]
        exact contents_remove_suffix f (n + 1)

/-- The slots above the rotated ones are left alone. -/
theorem shift_above (fails : ℕ → Bool) {i : ℕ} (hi : n < i) : shift fails f n i = f i := by
  induction n generalizing f with
  | zero => rfl
  | succ n ih =>
    rw [shift]
    cases hn : f n with
    | none => exact ih (by omega)
    | some content =>
      cases hfails : fails n with
      | true => rfl
      | false =>
        simp only [Bool.false_eq_true, if_false]
        rw [ih (by omega), Function.update_of_ne (by omega), Function.update_of_ne (by omega)]

theorem mem_contents_update {m : ℕ} {x : α}
    (h : x ∈ contents (Function.update f m none) n) : x ∈ contents f n := by
  induction n with
  | zero => exact h
  | succ n ih =>
    rw [contents, List.mem_append] at h ⊢
    rcases h with h | h
    · by_cases hnm : n = m
      · subst hnm
        rw [Function.update_self] at h
        cases h
      · rw [Function.update_of_ne hnm] at h
        exact Or.inl h
    · exact Or.inr (ih h)

/-- Emptying a slot that holds nothing changes no contents. -/
theorem contents_update_empty {m : ℕ} (h : (f m).getD [] = []) :
    contents (Function.update f m none) n = contents f n := by
  induction n with
  | zero => rfl
  | succ n ih =>
    rw [contents, contents, ih]
    by_cases hnm : n = m
    · subst hnm
      rw [Function.update_self, h]
      rfl
    · rw [Function.update_of_ne hnm]

end LukePanel.Library.Rotation
