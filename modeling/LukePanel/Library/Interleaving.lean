import Mathlib.Algebra.Order.BigOperators.Group.Finset
import Mathlib.Data.List.Induction
import Mathlib.Logic.Function.Basic

/-! # Threads that keep out of each other's way

Threads take steps in any order over a shared memory. Each owns a region of it, which is the only
part that it writes and which no other thread reads. Then a thread does in every interleaving what
it does alone. -/
namespace LukePanel.Library.Interleaving

/-- What thread `i` does in its local state, and `none` when it has no step left. -/
abbrev Threads (ι L M : Type*) := ι → L → M → Option (L × M)

structure Pool (ι L M : Type*) where
  locals : ι → L
  memory : M

/-- Whose part of the memory is whose; `good` are the local states that a thread can be in. -/
structure Regions (ι L M P V : Type*) where
  get : M → P → V
  own : ι → P → Prop
  good : ι → L → Prop

variable {ι L M P V : Type*}

/-- Memories that only differ where other threads write. -/
def Regions.Agree (R : Regions ι L M P V) (i : ι) (m m' : M) : Prop :=
  ∀ p, (∀ j, j ≠ i → ¬R.own j p) → R.get m p = R.get m' p

theorem Regions.Agree.refl {R : Regions ι L M P V} (i : ι) (m : M) : R.Agree i m m := fun _ _ => rfl

theorem Regions.Agree.symm {R : Regions ι L M P V} {i : ι} {m m' : M} (h : R.Agree i m m') :
    R.Agree i m' m := fun p hp => (h p hp).symm

namespace Threads

/-- What is asked of a step: a thread writes in its region only, and what it does depends on the
regions of no others. -/
structure Separate (T : Threads ι L M) (R : Regions ι L M P V) : Prop where
  good_step : ∀ {i l m l' m'}, R.good i l → T i l m = some (l', m') → R.good i l'
  frame : ∀ {i l m l' m' p}, R.good i l → T i l m = some (l', m') → ¬R.own i p →
    R.get m' p = R.get m p
  same_step : ∀ {i l m₁ m₂ l' m₁'}, R.good i l → R.Agree i m₁ m₂ → T i l m₁ = some (l', m₁') →
    ∃ m₂', T i l m₂ = some (l', m₂') ∧ R.Agree i m₁' m₂'

/-- Thread `i` alone, for a number of steps. -/
def solo (T : Threads ι L M) (i : ι) : Nat → L × M → Option (L × M)
  | 0, s => some s
  | k + 1, s => (T i s.1 s.2).bind (solo T i k)

/-- One thread takes a step. -/
def interleaved [DecidableEq ι] (T : Threads ι L M) (c : Pool ι L M) (i : ι) :
    Option (Pool ι L M) :=
  (T i (c.locals i) c.memory).map fun s => ⟨Function.update c.locals i s.1, s.2⟩

/-- The threads take steps in the order of a schedule. -/
def run [DecidableEq ι] (T : Threads ι L M) (c : Pool ι L M) (schedule : List ι) :
    Option (Pool ι L M) :=
  schedule.foldlM T.interleaved c

variable {T : Threads ι L M} {R : Regions ι L M P V}

theorem solo_add (i : ι) (j k : Nat) (s : L × M) :
    T.solo i (j + k) s = (T.solo i j s).bind (T.solo i k) := by
  induction j generalizing s with
  | zero => rw [Nat.zero_add]; rfl
  | succ j ih =>
    rw [Nat.succ_add, solo, solo]
    cases h : T i s.1 s.2 with
    | none => rfl
    | some s' => exact ih s'

theorem solo_succ {i : ι} {k : Nat} {s t : L × M} (h : T.solo i k s = some t) :
    T.solo i (k + 1) s = T i t.1 t.2 := by
  rw [solo_add, h, Option.bind_some, solo]
  cases T i t.1 t.2 with
  | none => rfl
  | some u => rfl

/-- A thread that has ended alone was not outrun by any other run of it alone. -/
theorem solo_le_of_stuck {i : ι} {j k : Nat} {s t u : L × M} (hj : T.solo i j s = some t)
    (hk : T.solo i k s = some u) (hstuck : T i u.1 u.2 = none) : j ≤ k := by
  by_contra hlt
  obtain ⟨d, rfl⟩ : ∃ d, j = k + (d + 1) := ⟨j - k - 1, by omega⟩
  rw [solo_add, hk, Option.bind_some, solo, hstuck] at hj
  cases hj

theorem good_of_solo (hsep : T.Separate R) {i : ι} {k : Nat} {s t : L × M} (hgood : R.good i s.1)
    (h : T.solo i k s = some t) : R.good i t.1 := by
  induction k generalizing s with
  | zero =>
    cases h
    exact hgood
  | succ k ih =>
    obtain ⟨u, hu, h⟩ := Option.bind_eq_some_iff.mp h
    exact ih (hsep.good_step hgood hu) h

variable [DecidableEq ι]

theorem interleaved_eq {c c' : Pool ι L M} {i : ι} (h : T.interleaved c i = some c') :
    T i (c.locals i) c.memory = some (c'.locals i, c'.memory) ∧
      ∀ j, j ≠ i → c'.locals j = c.locals j := by
  obtain ⟨s, hs, rfl⟩ := Option.map_eq_some_iff.mp h
  refine ⟨?_, fun j hj => Function.update_of_ne hj _ _⟩
  rw [hs]
  exact congrArg some (Prod.ext (Function.update_self i s.1 c.locals).symm rfl)

/-- A run taken apart at its last step. -/
theorem run_concat {c c' : Pool ι L M} {schedule : List ι} {i : ι}
    (h : T.run c (schedule ++ [i]) = some c') :
    ∃ d, T.run c schedule = some d ∧ T.interleaved d i = some c' := by
  rw [run, List.foldlM_append] at h
  obtain ⟨d, hd, hlast⟩ := Option.bind_eq_some_iff.mp h
  refine ⟨d, hd, ?_⟩
  simpa using hlast

variable (hsep : T.Separate R) {c c' : Pool ι L M} (hgood : ∀ i, R.good i (c.locals i))
  {schedule : List ι} (h : T.run c schedule = some c')
include hsep hgood h

theorem good_of_run (i : ι) : R.good i (c'.locals i) := by
  induction schedule using List.reverseRecOn generalizing c' with
  | nil =>
    cases h
    exact hgood i
  | append_singleton schedule j ih =>
    obtain ⟨d, hd, hlast⟩ := run_concat h
    obtain ⟨hj, hother⟩ := interleaved_eq hlast
    by_cases hij : i = j
    · subst hij
      exact hsep.good_step (ih hd) hj
    · exact hother i hij ▸ ih hd

theorem frame_of_run {p : P} (hp : ∀ i, ¬R.own i p) : R.get c'.memory p = R.get c.memory p := by
  induction schedule using List.reverseRecOn generalizing c' with
  | nil =>
    cases h
    rfl
  | append_singleton schedule j ih =>
    obtain ⟨d, hd, hlast⟩ := run_concat h
    obtain ⟨hj, -⟩ := interleaved_eq hlast
    exact (hsep.frame (good_of_run hsep hgood hd j) hj (hp j)).trans (ih hd)

/-- Each thread has come as far as it comes alone in as many steps as it has taken. -/
theorem solo_of_run (i : ι) :
    ∃ m, T.solo i (schedule.count i) (c.locals i, c.memory) = some (c'.locals i, m) ∧
      R.Agree i m c'.memory := by
  induction schedule using List.reverseRecOn generalizing c' with
  | nil =>
    cases h
    exact ⟨c.memory, rfl, Regions.Agree.refl i c.memory⟩
  | append_singleton schedule j ih =>
    obtain ⟨d, hd, hlast⟩ := run_concat h
    obtain ⟨m, hsolo, hagree⟩ := ih hd
    obtain ⟨hj, hother⟩ := interleaved_eq hlast
    have hgoods := good_of_run hsep hgood hd
    by_cases hij : j = i
    · subst hij
      obtain ⟨m₂, hm₂, hagree'⟩ := hsep.same_step (hgoods j) hagree.symm hj
      refine ⟨m₂, ?_, hagree'.symm⟩
      rw [List.count_append, List.count_singleton_self, solo_succ hsolo]
      exact hm₂
    · -- the step of another thread is in its own region
      refine ⟨m, ?_, fun p hp => ?_⟩
      · rw [List.count_append, List.count_singleton, if_neg (by simpa using hij), Nat.add_zero,
          hother i (Ne.symm hij)]
        exact hsolo
      · rw [hagree p hp, hsep.frame (hgoods j) hj (hp j hij)]

variable {i : ι} {k : Nat} {l : L} {m : M}
  (halone : T.solo i k (c.locals i, c.memory) = some (l, m)) (hend : T i l m = none)
include halone hend

/-- A thread that comes to an end alone takes no more steps in any interleaving. -/
theorem count_le_of_run : schedule.count i ≤ k := by
  obtain ⟨m', hsolo, -⟩ := solo_of_run hsep hgood h i
  exact solo_le_of_stuck hsolo halone hend

/-- Nor does it stop before: where it has no step left its state is the one it ends in alone, and
so is what it sees of the memory. -/
theorem ends_as_alone (hstuck : T i (c'.locals i) c'.memory = none) :
    c'.locals i = l ∧ R.Agree i m c'.memory := by
  obtain ⟨m', hsolo, hagree⟩ := solo_of_run hsep hgood h i
  have hstuck' : T i (c'.locals i) m' = none := by
    cases hs : T i (c'.locals i) m' with
    | none => rfl
    | some s =>
      obtain ⟨m₂, hm₂, -⟩ := hsep.same_step (good_of_run hsep hgood h i) hagree hs
      rw [hstuck] at hm₂
      cases hm₂
  have hcount : k = schedule.count i :=
    Nat.le_antisymm (solo_le_of_stuck halone hsolo hstuck') (solo_le_of_stuck hsolo halone hend)
  rw [hcount, hsolo] at halone
  cases halone
  exact ⟨rfl, hagree⟩

omit h halone hend in
/-- Where every thread comes to an end alone, there is a run in which all of them do. -/
theorem exists_run_to_end [Fintype ι]
    (hends : ∀ i, ∃ k l m, T.solo i k (c.locals i, c.memory) = some (l, m) ∧ T i l m = none) :
    ∃ schedule c', T.run c schedule = some c' ∧ ∀ i, T i (c'.locals i) c'.memory = none := by
  choose k l m halone hend using hends
  by_contra hnone
  -- otherwise every run could be prolonged, but no run is longer than the threads are alone
  have hlong (n : Nat) : ∃ schedule c', schedule.length = n ∧ T.run c schedule = some c' := by
    induction n with
    | zero => exact ⟨[], c, rfl, rfl⟩
    | succ n ih =>
      obtain ⟨schedule, d, hlength, hd⟩ := ih
      obtain ⟨i, hi⟩ : ∃ i, T i (d.locals i) d.memory ≠ none := by
        by_contra hall
        exact hnone ⟨schedule, d, hd, fun i => not_not.mp fun hi => hall ⟨i, hi⟩⟩
      obtain ⟨s, hs⟩ := Option.ne_none_iff_exists'.mp hi
      refine ⟨schedule ++ [i], ⟨Function.update d.locals i s.1, s.2⟩, ?_, ?_⟩
      · rw [List.length_append, hlength]
        rfl
      · rw [run, List.foldlM_append, show schedule.foldlM T.interleaved c = some d from hd]
        simp [interleaved, hs]
  obtain ⟨schedule, d, hlength, hd⟩ := hlong (∑ i, k i + 1)
  have hcount : ∑ i, schedule.count i = schedule.length := by
    simpa using Multiset.sum_count_eq_card (m := (schedule : Multiset ι)) fun i _ => Finset.mem_univ i
  have hle : ∑ i, schedule.count i ≤ ∑ i, k i :=
    Finset.sum_le_sum fun i _ => count_le_of_run hsep hgood hd (halone i) (hend i)
  omega

end Threads

end LukePanel.Library.Interleaving
