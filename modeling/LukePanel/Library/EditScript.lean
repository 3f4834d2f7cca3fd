import Mathlib.Data.List.Basic

/-! # Edit scripts and longest common subsequences

A script goes through two lists at once: what both have, what only the first and what only the
second has. The more it has in common, the shorter it is. -/
namespace LukePanel.Library.EditScript

variable {α : Type*}

inductive Edit (α : Type*) where
  | context (line : α)
  | removed (line : α)
  | added (line : α)
  deriving DecidableEq, Repr

namespace Edit

@[simp] def line : Edit α → α
  | .context line | .removed line | .added line => line

@[simp] def inOld : Edit α → Bool
  | .added _ => false
  | _ => true

@[simp] def inNew : Edit α → Bool
  | .removed _ => false
  | _ => true

@[simp] def unchanged : Edit α → Bool
  | .context _ => true
  | _ => false

@[simp] def changed : Edit α → Bool
  | .context _ => false
  | _ => true

end Edit

/-- The lines of the edits that are picked. -/
def side (p : Edit α → Bool) (script : List (Edit α)) : List α := (script.filter p).map Edit.line

/-- The list a script starts from. -/
abbrev oldSide (script : List (Edit α)) : List α := side Edit.inOld script

/-- The list it ends with. -/
abbrev newSide (script : List (Edit α)) : List α := side Edit.inNew script

/-- What both have in common. -/
abbrev common (script : List (Edit α)) : List α := side Edit.unchanged script

/-- What only one of them has. -/
abbrev changes (script : List (Edit α)) : List α := side Edit.changed script

section

variable {p : Edit α → Bool} {f : α → Edit α}

@[simp] theorem side_nil : side p [] = [] := rfl

@[simp] theorem side_cons (e : Edit α) (rest : List (Edit α)) :
    side p (e :: rest) = if p e then e.line :: side p rest else side p rest := by
  unfold side
  rw [List.filter_cons]
  split <;> rfl

@[simp] theorem side_append (script rest : List (Edit α)) :
    side p (script ++ rest) = side p script ++ side p rest := by
  simp [side]

theorem side_map (hline : ∀ x, (f x).line = x) (hp : ∀ x, p (f x) = true) (l : List α) :
    side p (l.map f) = l := by
  induction l with
  | nil => rfl
  | cons x l ih => rw [List.map_cons, side_cons, if_pos (hp x), hline, ih]

theorem side_map_none (hp : ∀ x, p (f x) = false) (l : List α) : side p (l.map f) = [] := by
  induction l with
  | nil => rfl
  | cons x l ih => rw [List.map_cons, side_cons, hp, if_neg Bool.false_ne_true, ih]

end

/-- What both sides have beyond what they have in common is what changes. -/
theorem length_sides (script : List (Edit α)) : (oldSide script).length + (newSide script).length =
    2 * (common script).length + (changes script).length := by
  unfold oldSide newSide common changes
  induction script with
  | nil => rfl
  | cons e rest ih =>
    cases e with
    | context line =>
      simp
      omega
    | removed line =>
      simp
      omega
    | added line =>
      simp
      omega

theorem oldSide_eq_newSide {script : List (Edit α)} (h : changes script = []) :
    oldSide script = newSide script := by
  induction script with
  | nil => rfl
  | cons e rest ih =>
    cases e with
    | context line =>
      have hrest : changes rest = [] := h
      simp [ih hrest]
    | removed line => cases h
    | added line => cases h

/-! ## Longest common subsequences -/

/-- `n` is the length of the longest common subsequences. -/
structure Longest (n : ℕ) (s t : List α) : Prop where
  reached : ∃ l : List α, l.Sublist s ∧ l.Sublist t ∧ l.length = n
  bound : ∀ l : List α, l.Sublist s → l.Sublist t → l.length ≤ n

namespace Longest

variable {s t : List α} {m n : ℕ} {a b : α}

theorem nil_left (t : List α) : Longest 0 [] t where
  reached := ⟨[], List.nil_sublist _, List.nil_sublist _, rfl⟩
  bound _ h _ := Nat.le_of_eq (List.length_eq_zero_iff.mpr (List.sublist_nil.mp h))

theorem nil_right (s : List α) : Longest 0 s [] where
  reached := ⟨[], List.nil_sublist _, List.nil_sublist _, rfl⟩
  bound _ _ h := Nat.le_of_eq (List.length_eq_zero_iff.mpr (List.sublist_nil.mp h))

/-- There is only one such length. -/
theorem unique (h : Longest m s t) (h' : Longest n s t) : m = n := by
  obtain ⟨l, hs, ht, rfl⟩ := h.reached
  obtain ⟨l', hs', ht', rfl⟩ := h'.reached
  exact Nat.le_antisymm (h'.bound l hs ht) (h.bound l' hs' ht')

theorem le_length (h : Longest n s t) : n ≤ s.length := by
  obtain ⟨l, hs, -, rfl⟩ := h.reached
  exact hs.length_le

/-- An element at the head of both lists is common. -/
theorem cons_same (h : Longest n s t) (a : α) : Longest (n + 1) (a :: s) (a :: t) where
  reached := by
    obtain ⟨l, hs, ht, rfl⟩ := h.reached
    exact ⟨a :: l, hs.cons_cons a, ht.cons_cons a, rfl⟩
  bound l hs ht := by
    have htail := h.bound l.tail hs.tail ht.tail
    rw [List.length_tail] at htail
    omega

/-- Of two different heads one at least is not common. -/
theorem cons_ne (hne : a ≠ b) (hs : Longest m s (b :: t)) (ht : Longest n (a :: s) t) :
    Longest (max m n) (a :: s) (b :: t) where
  reached := by
    rcases Nat.le_total m n with hmn | hnm
    · obtain ⟨l, hl, hl', hlength⟩ := ht.reached
      exact ⟨l, hl, hl'.cons b, by rw [hlength, Nat.max_eq_right hmn]⟩
    · obtain ⟨l, hl, hl', hlength⟩ := hs.reached
      exact ⟨l, hl.cons a, hl', by rw [hlength, Nat.max_eq_left hnm]⟩
  bound l hl hl' := by
    rcases List.sublist_cons_iff.mp hl with hrest | ⟨r, rfl, -⟩
    · exact Nat.le_trans (hs.bound l hrest hl') (Nat.le_max_left m n)
    · rcases List.sublist_cons_iff.mp hl' with hrest' | ⟨r', heq, -⟩
      · exact Nat.le_trans (ht.bound _ hl hrest') (Nat.le_max_right m n)
      · exact absurd (List.cons.inj heq).1 hne

end Longest

/-- A script with as much in common as there is changes something exactly if its sides differ. -/
theorem changes_eq_nil {script : List (Edit α)}
    (h : Longest (common script).length (oldSide script) (newSide script)) :
    changes script = [] ↔ oldSide script = newSide script := by
  refine ⟨oldSide_eq_newSide, fun heq => ?_⟩
  have hlengths := length_sides script
  rw [heq] at h hlengths
  have hall := h.bound _ (List.Sublist.refl _) (List.Sublist.refl _)
  exact List.length_eq_zero_iff.mp (by omega)

end LukePanel.Library.EditScript
