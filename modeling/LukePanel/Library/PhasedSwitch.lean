import Mathlib.Data.Finset.Erase
import Mathlib.Data.Finset.Insert

/-! # Replacing a way in without losing it

A set of ways in stands. A switch from one of them to another first adds the new one; it is on
trial until it is confirmed, when the old one may go, or cancelled, when what stood before the
switch stands again. -/
namespace LukePanel.Library.PhasedSwitch

variable {α : Type*}

/-- A switch on trial, with what stood before it. -/
structure Trial (α : Type*) where
  old : α
  new : α
  before : Finset α

structure Access (α : Type*) where
  standing : Finset α
  trial : Option (Trial α)

inductive Event where
  | fail | begin | confirm | cancel | replace
  deriving DecidableEq

namespace Access

/-- What stands and is not on trial. -/
def established (a : Access α) : Finset α := (a.trial.map Trial.before).getD a.standing

variable {a : Access α} {t : Trial α}

theorem established_of_trial (h : a.trial = some t) : a.established = t.before := by
  simp [established, h]

theorem established_of_no_trial (h : a.trial = none) : a.established = a.standing := by
  simp [established, h]

variable [DecidableEq α]

/-- A switch on trial adds its new way in to what stood before. -/
def WellFormed (a : Access α) : Prop :=
  ∀ t, a.trial = some t → a.standing = insert t.new t.before

inductive Step (a : Access α) : Event → Access α → Prop
  | fail {a' : Access α} (hs : a'.standing = a.standing) (ht : a'.trial = a.trial) :
      Step a .fail a'
  | begin {a' : Access α} {t : Trial α} (ht : a'.trial = some t) (hb : t.before = a.standing)
      (hs : a'.standing = insert t.new a.standing) : Step a .begin a'
  | confirm {a' : Access α} {t : Trial α} (ht : a.trial = some t) (ht' : a'.trial = none)
      (hs : t.before.erase t.old ⊆ a'.standing) : Step a .confirm a'
  | cancel {a' : Access α} {t : Trial α} (ht : a.trial = some t) (ht' : a'.trial = none)
      (hs : a'.standing = t.before) : Step a .cancel a'
  | replace {a' : Access α} (ht' : a'.trial = none) (hs : a.established ⊆ a'.standing) :
      Step a .replace a'

variable {a' : Access α} {e : Event} {x : α}

theorem WellFormed.step (h : a.WellFormed) (hstep : Step a e a') : a'.WellFormed := by
  intro t ht
  cases hstep with
  | fail hs ht' => rw [hs, h t (ht' ▸ ht)]
  | begin ht' hb hs =>
    cases ht'.symm.trans ht
    rw [hs, hb]
  | confirm _ ht' _ | cancel _ ht' _ | replace ht' _ => simp [ht'] at ht

theorem WellFormed.established_subset (h : a.WellFormed) : a.established ⊆ a.standing := by
  cases ht : a.trial with
  | none => rw [established_of_no_trial ht]
  | some t =>
    rw [established_of_trial ht, h t ht]
    exact Finset.subset_insert _ _

/-- What stands is established or on trial. -/
theorem WellFormed.mem_established (h : a.WellFormed) (hx : x ∈ a.standing)
    (hnew : ∀ t, a.trial = some t → t.new ≠ x) : x ∈ a.established := by
  cases ht : a.trial with
  | none => rwa [established_of_no_trial ht]
  | some t =>
    rw [established_of_trial ht]
    rw [h t ht] at hx
    exact (Finset.mem_insert.mp hx).resolve_left (hnew t ht).symm

/-- **What is established stays established until a switch away from it is confirmed.** -/
theorem Step.established (hstep : Step a e a') (hw : a.WellFormed) (hx : x ∈ a.established)
    (hold : e = .confirm → ∀ t, a.trial = some t → t.old ≠ x) : x ∈ a'.established := by
  cases hstep with
  | fail hs ht => rwa [Access.established, hs, ht]
  | begin ht hb hs =>
    rw [established_of_trial ht, hb]
    exact hw.established_subset hx
  | confirm ht ht' hs =>
    rw [established_of_trial ht] at hx
    rw [established_of_no_trial ht']
    exact hs (Finset.mem_erase.mpr ⟨(hold rfl _ ht).symm, hx⟩)
  | cancel ht ht' hs =>
    rw [established_of_trial ht] at hx
    rwa [established_of_no_trial ht', hs]
  | replace ht' hs =>
    rw [established_of_no_trial ht']
    exact hs hx

end Access

end LukePanel.Library.PhasedSwitch
