import Mathlib.Logic.Basic
import Mathlib.Data.List.Basic

/-! # Computations that return a value, return an error, or panic -/
namespace LukePanel.Library

inductive Outcome (α : Type) where
  | ok (value : α)
  | error (message : String)
  | panic
deriving DecidableEq

namespace Outcome

variable {α β : Type}

def bind (x : Outcome α) (f : α → Outcome β) : Outcome β :=
  match x with
  | .ok a => f a
  | .error e => .error e
  | .panic => .panic

instance : Monad Outcome where
  pure := .ok
  bind := Outcome.bind

/-- `fmt.Errorf` around an error. -/
def wrapError (text : String) : Outcome α → Outcome α
  | .ok a => .ok a
  | .error e => .error (text ++ e)
  | .panic => .panic

def ofOption (e : String) : Option α → Outcome α
  | some a => .ok a
  | none => .error e

/-- A value or an error. -/
def Returns (x : Outcome α) : Prop := x ≠ .panic

instance (x : Outcome α) : Decidable x.Returns :=
  match x with
  | .ok _ | .error _ => .isTrue nofun
  | .panic => .isFalse fun h => h rfl

/-- A value or a panic. -/
def NoError (x : Outcome α) : Prop := ∀ e, x ≠ .error e

@[simp] theorem pure_eq (a : α) : (pure a : Outcome α) = .ok a := rfl

@[simp] theorem ok_bind (a : α) (f : α → Outcome β) : (Outcome.ok a >>= f) = f a := rfl

@[simp] theorem error_bind (e : String) (f : α → Outcome β) :
    (Outcome.error e >>= f) = .error e := rfl

@[simp] theorem panic_bind (f : α → Outcome β) : (Outcome.panic >>= f) = .panic := rfl

theorem bind_eq_ok {x : Outcome α} {f : α → Outcome β} {b : β} (h : (x >>= f) = .ok b) :
    ∃ a, x = .ok a ∧ f a = .ok b := by
  cases x with
  | ok a => exact ⟨a, rfl, h⟩
  | error e => cases h
  | panic => cases h

theorem bind_eq_panic {x : Outcome α} {f : α → Outcome β} (h : (x >>= f) = .panic) :
    x = .panic ∨ ∃ a, x = .ok a ∧ f a = .panic := by
  cases x with
  | ok a => exact .inr ⟨a, rfl, h⟩
  | error e => cases h
  | panic => exact .inl rfl

/-- A check that was passed: the rest of the computation gave the result. -/
theorem ite_error_eq_ok {c : Prop} {_ : Decidable c} {e : String} {x : Outcome α} {a : α}
    (h : (if c then .error e else x) = .ok a) : ¬ c ∧ x = .ok a := by
  split at h
  · cases h
  · exact ⟨‹_›, h⟩

theorem returns_ok (a : α) : Returns (.ok a) := fun h => by cases h

theorem returns_error (e : String) : Returns (.error e : Outcome α) := fun h => by cases h

theorem returns_bind {x : Outcome α} {f : α → Outcome β} :
    (x >>= f).Returns ↔ x.Returns ∧ ∀ a, x = .ok a → (f a).Returns := by
  cases x with
  | ok a => exact ⟨fun h => ⟨returns_ok a, fun b hb => by cases hb; exact h⟩, fun h => h.2 a rfl⟩
  | error e => exact ⟨fun _ => ⟨returns_error e, fun b hb => by cases hb⟩, fun _ => returns_error e⟩
  | panic => exact ⟨fun h => absurd rfl h, fun h => absurd rfl h.1⟩

theorem returns_wrapError {x : Outcome α} {text : String} : (wrapError text x).Returns ↔ x.Returns := by
  cases x with
  | ok a => exact ⟨fun _ => returns_ok a, fun _ => returns_ok a⟩
  | error e => exact ⟨fun _ => returns_error e, fun _ => returns_error _⟩
  | panic => exact Iff.rfl

theorem wrapError_eq_ok {x : Outcome α} {text : String} {a : α} : wrapError text x = .ok a ↔ x = .ok a := by
  cases x with
  | ok b => exact Iff.rfl
  | error e => constructor <;> (intro h; cases h)
  | panic => exact Iff.rfl

theorem returns_ofOption (e : String) (x : Option α) : (ofOption e x).Returns := by
  cases x with
  | some a => exact returns_ok a
  | none => exact returns_error e

theorem ofOption_eq_ok {e : String} {x : Option α} {a : α} : ofOption e x = .ok a ↔ x = some a := by
  cases x with
  | some b => exact ⟨fun h => by cases h; rfl, fun h => by cases h; rfl⟩
  | none => constructor <;> (intro h; cases h)

theorem returns_ite {c : Prop} {_ : Decidable c} {e : String} {x : Outcome α} :
    (if c then .error e else x).Returns ↔ (¬ c → x.Returns) := by
  split
  · exact ⟨fun _ h => absurd ‹c› h, fun _ => returns_error e⟩
  · exact ⟨fun h _ => h, fun h => h ‹_›⟩

theorem noError_ok (a : α) : NoError (.ok a) := fun e h => by cases h

theorem noError_panic : NoError (.panic : Outcome α) := fun e h => by cases h

theorem noError_bind {x : Outcome α} {f : α → Outcome β} (hx : NoError x) (hf : ∀ a, NoError (f a)) :
    NoError (x >>= f) := by
  cases x with
  | ok a => exact hf a
  | error e => exact absurd rfl (hx e)
  | panic => exact noError_panic

/-! ## Slices of bytes -/

/-- `data[i]` -/
def index (data : List UInt8) (i : ℕ) : Outcome UInt8 :=
  match data[i]? with
  | some b => .ok b
  | none => .panic

/-- `data[from:to]` -/
def slice (data : List UInt8) (start stop : ℕ) : Outcome (List UInt8) :=
  if start ≤ stop ∧ stop ≤ data.length then .ok ((data.take stop).drop start) else .panic

theorem index_eq {data : List UInt8} {i : ℕ} (h : i < data.length) :
    index data i = .ok data[i] := by
  rw [index, List.getElem?_eq_getElem h]

theorem slice_eq {data : List UInt8} {start n : ℕ} (h : start + n ≤ data.length) :
    slice data start (start + n) = .ok ((data.drop start).take n) := by
  rw [slice, if_pos ⟨Nat.le_add_right _ _, h⟩, List.drop_take, Nat.add_sub_cancel_left]

end Outcome

end LukePanel.Library
