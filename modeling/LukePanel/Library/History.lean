import Mathlib.Data.List.Basic

/-! # Histories

A history lists what has happened, the latest first. `Since ends e history` says that `e` has
happened and nothing since that ends it, and `Justified` that every entry was justified by the
entries before it when it was added. -/
namespace LukePanel.Library.History

variable {ε : Type*} {ends ends' : ε → Prop} {e x : ε} {history later before : List ε}

/-! ## What has not been ended -/

/-- `e` has happened, and since then nothing that ends it. -/
def Since (ends : ε → Prop) (e : ε) (history : List ε) : Prop :=
  ∃ later before, history = later ++ e :: before ∧ ∀ x ∈ later, ¬ ends x

namespace Since

theorem here (ends : ε → Prop) (e : ε) (history : List ε) : Since ends e (e :: history) :=
  ⟨[], history, rfl, by simp⟩

theorem mem (h : Since ends e history) : e ∈ history := by
  obtain ⟨later, before, rfl, _⟩ := h
  simp

/-- What adds no end keeps it. -/
theorem append (h : Since ends e history) (hx : ∀ x ∈ later, ¬ ends x) :
    Since ends e (later ++ history) := by
  obtain ⟨mid, before, rfl, hmid⟩ := h
  refine ⟨later ++ mid, before, by simp, fun x hmem => ?_⟩
  rcases List.mem_append.mp hmem with hlater | hold
  · exact hx x hlater
  · exact hmid x hold

theorem cons (h : Since ends e history) (hx : ¬ ends x) : Since ends e (x :: history) := by
  have happend : Since ends e ([x] ++ history) := h.append (by simpa using hx)
  exact happend

/-- What is current after an entry is the entry, or was current and is not ended by it. -/
theorem of_cons (h : Since ends e (x :: history)) : x = e ∨ ¬ ends x ∧ Since ends e history := by
  obtain ⟨later, before, heq, hends⟩ := h
  cases later with
  | nil => exact .inl (List.cons.inj heq).1
  | cons y rest =>
    obtain ⟨rfl, hrest⟩ := List.cons.inj heq
    exact .inr ⟨hends x List.mem_cons_self, rest, before, hrest,
      fun z hz => hends z (List.mem_cons_of_mem _ hz)⟩

end Since

/-! ## Justified histories -/

/-- Each entry is justified by the entries before it. -/
def Justified (because : ε → List ε → Prop) : List ε → Prop
  | [] => True
  | e :: before => because e before ∧ Justified because before

variable {because : ε → List ε → Prop}

theorem Justified.of_append (h : Justified because (later ++ e :: before)) : because e before := by
  induction later with
  | nil => exact h.1
  | cons x rest ih => exact ih h.2

end LukePanel.Library.History
