import Mathlib.Data.List.Basic

/-! # Loops that count

Their rounds may fail, or have several outcomes. -/
namespace LukePanel.Library.CountedLoops

variable {β : Type*} {f : β → Nat → Option β}

/-- The rule of a counted loop: an invariant of the count so far, which every round keeps without
failing. -/
theorem foldlM_range {P : Nat → β → Prop} {n : Nat} {b : β} (h0 : P 0 b)
    (hstep : ∀ i < n, ∀ b, P i b → ∃ b', f b i = some b' ∧ P (i + 1) b') :
    ∃ b', (List.range n).foldlM f b = some b' ∧ P n b' := by
  induction n with
  | zero => exact ⟨b, rfl, h0⟩
  | succ n ih =>
    obtain ⟨b₁, hrun, hinv⟩ := ih fun i hi => hstep i (Nat.lt_succ_of_lt hi)
    obtain ⟨b', hlast, hinv'⟩ := hstep n (Nat.lt_succ_self _) b₁ hinv
    refine ⟨b', ?_, hinv'⟩
    rw [List.range_succ, List.foldlM_append, hrun, Option.bind_eq_bind, Option.bind_some,
      List.foldlM_cons, hlast, Option.bind_eq_bind, Option.bind_some, List.foldlM_nil]
    rfl

/-- Rounds that a relation says the outcomes of. -/
def InTurn (R : Nat → β → β → Prop) : Nat → β → β → Prop
  | 0, b, b' => b' = b
  | count + 1, b, b' => ∃ b₁, InTurn R count b b₁ ∧ R count b₁ b'

variable {R : Nat → β → β → Prop} {P : Nat → β → Prop} {count : Nat} {b b' : β}

theorem InTurn.invariant (h : InTurn R count b b') (h0 : P 0 b)
    (hstep : ∀ i < count, ∀ b b', P i b → R i b b' → P (i + 1) b') : P count b' := by
  induction count generalizing b' with
  | zero =>
    cases h
    exact h0
  | succ count ih =>
    obtain ⟨b₁, hrun, hlast⟩ := h
    exact hstep count (Nat.lt_succ_self _) b₁ b'
      (ih hrun fun i hi => hstep i (Nat.lt_succ_of_lt hi)) hlast

/-- The invariant may also say that there is an outcome. -/
theorem InTurn.exists (h0 : P 0 b) (hstep : ∀ i < count, ∀ b, P i b → ∃ b', R i b b' ∧ P (i + 1) b') :
    ∃ b', InTurn R count b b' ∧ P count b' := by
  induction count with
  | zero => exact ⟨b, rfl, h0⟩
  | succ count ih =>
    obtain ⟨b₁, hrun, hinv⟩ := ih fun i hi => hstep i (Nat.lt_succ_of_lt hi)
    obtain ⟨b', hlast, hinv'⟩ := hstep count (Nat.lt_succ_self _) b₁ hinv
    exact ⟨b', ⟨b₁, hrun, hlast⟩, hinv'⟩

end LukePanel.Library.CountedLoops
