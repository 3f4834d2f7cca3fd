import Mathlib.Order.Basic

/-! # Guarded runs of a partial step function

A machine is a function `step : σ → α → Option σ`: an action is taken in a state or it is
not enabled there. A guard is a relation between a state and the action taken in it;
`Reaches step guard s t` is a run from `s` to `t` whose every step meets the guard. A
property that holds initially and survives every guarded step holds along every run. -/
namespace LukePanel.Library.Machine

variable {σ α : Type*} {step : σ → α → Option σ} {guard guard' : σ → α → Prop} {s t u : σ}

/-- The guard of an unrestricted run. -/
def Free (_ : σ) (_ : α) : Prop := True

/-- A run of steps that all meet the guard in the state they are taken in. -/
inductive Reaches (step : σ → α → Option σ) (guard : σ → α → Prop) (s : σ) : σ → Prop
  | refl : Reaches step guard s s
  | tail {t u : σ} {a : α} : Reaches step guard s t → guard t a → step t a = some u →
      Reaches step guard s u

namespace Reaches

theorem trans (h : Reaches step guard s t) (h' : Reaches step guard t u) :
    Reaches step guard s u := by
  induction h' with
  | refl => exact h
  | tail _ hg hs ih => exact ih.tail hg hs

theorem mono (himp : ∀ s a, guard s a → guard' s a) (h : Reaches step guard s t) :
    Reaches step guard' s t := by
  induction h with
  | refl => exact .refl
  | tail _ hg hs ih => exact ih.tail (himp _ _ hg) hs

theorem free (h : Reaches step guard s t) : Reaches step Free s t :=
  h.mono fun _ _ _ => trivial

/-- The invariant rule. -/
theorem invariant {P : σ → Prop} (h : Reaches step guard s t) (h0 : P s)
    (hstep : ∀ t a u, P t → guard t a → step t a = some u → P u) : P t := by
  induction h with
  | refl => exact h0
  | tail _ hg hs ih => exact hstep _ _ _ ih hg hs

/-- The invariant rule on top of an invariant that is known to hold along the run. -/
theorem invariant_under {I P : σ → Prop} (h : Reaches step guard s t) (hI0 : I s) (h0 : P s)
    (hI : ∀ t a u, I t → guard t a → step t a = some u → I u)
    (hstep : ∀ t a u, I t → P t → guard t a → step t a = some u → P u) : P t :=
  (h.invariant (P := fun x => I x ∧ P x) ⟨hI0, h0⟩ fun t a u hp hg hs =>
    ⟨hI t a u hp.1 hg hs, hstep t a u hp.1 hp.2 hg hs⟩).2

end Reaches

/-- The state after a list of actions, if every action passes the check and is enabled when
its turn comes. -/
def runIf (step : σ → α → Option σ) (check : σ → α → Bool) : σ → List α → Option σ
  | s, [] => some s
  | s, a :: rest => if check s a then (step s a).bind (runIf step check · rest) else none

def run (step : σ → α → Option σ) : σ → List α → Option σ := runIf step fun _ _ => true

theorem reaches_of_runIf {check : σ → α → Bool} (hc : ∀ s a, check s a = true → guard s a) :
    ∀ {s t : σ} {acts : List α}, runIf step check s acts = some t → Reaches step guard s t
  | s, t, [], h => by simp only [runIf, Option.some.injEq] at h; exact h ▸ .refl
  | s, t, a :: rest, h => by
    simp only [runIf] at h
    split at h
    · rename_i ha
      obtain ⟨u, hu, hrest⟩ := Option.bind_eq_some_iff.mp h
      exact (Reaches.refl.tail (hc s a ha) hu).trans (reaches_of_runIf hc hrest)
    · cases h

theorem run_of_runIf {check : σ → α → Bool} : ∀ {s t : σ} {acts : List α},
    runIf step check s acts = some t → run step s acts = some t
  | _, _, [], h => h
  | s, t, a :: rest, h => by
    simp only [runIf] at h
    split at h
    · obtain ⟨u, hu, hrest⟩ := Option.bind_eq_some_iff.mp h
      simp only [run, runIf, if_true, hu, Option.bind_some]
      exact run_of_runIf hrest
    · cases h

/-- A list of actions that runs is a run without restriction. -/
theorem reaches_of_run {acts : List α} (h : run step s acts = some t) : Reaches step Free s t :=
  reaches_of_runIf (fun _ _ _ => trivial) h

/-! ## Guards on what a computation returns -/

instance decidableForallOk {ε β : Type*} {p : β → Prop} [DecidablePred p] :
    (x : Except ε β) → Decidable (∀ b, x = .ok b → p b)
  | .error _ => isTrue fun _ h => nomatch h
  | .ok b => decidable_of_iff (p b) ⟨fun h _ he => Except.ok.inj he ▸ h, fun h => h b rfl⟩

end LukePanel.Library.Machine
