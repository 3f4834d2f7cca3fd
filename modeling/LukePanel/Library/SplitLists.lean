import Mathlib.Data.List.Basic

/-! # Lists split at a separator

What the pieces of a list are like, beyond that joining them gives the list back. -/
namespace LukePanel.Library.SplitLists

variable {α : Type*} {sep : α}

theorem intercalate_concat (sep : α) {pieces : List (List α)} (h : pieces ≠ []) (last : List α) :
    [sep].intercalate (pieces ++ [last]) = [sep].intercalate pieces ++ sep :: last := by
  induction pieces with
  | nil => exact absurd rfl h
  | cons piece rest ih =>
    by_cases hrest : rest = []
    · subst hrest
      rw [List.singleton_append, List.intercalate_cons_cons, List.intercalate_singleton,
        List.intercalate_singleton, List.append_assoc, List.singleton_append]
    · have hne : rest ++ [last] ≠ [] := List.concat_ne_nil last rest
      rw [List.cons_append, List.intercalate_cons_of_ne_nil hne, ih hrest,
        List.intercalate_cons_of_ne_nil hrest, List.append_assoc, List.append_assoc,
        List.append_assoc]

theorem infix_intercalate {between piece : List α} {pieces : List (List α)}
    (h : piece ∈ pieces) : piece <:+: between.intercalate pieces := by
  induction pieces with
  | nil => cases h
  | cons first rest ih =>
    by_cases hrest : rest = []
    · subst hrest
      exact ⟨[], [], by simp [List.mem_singleton.mp h]⟩
    · rw [List.intercalate_cons_of_ne_nil hrest]
      rcases List.mem_cons.mp h with rfl | hmem
      · rw [List.append_assoc]
        exact (List.prefix_append _ _).isInfix
      · exact (ih hmem).trans (List.suffix_append _ _).isInfix

variable [BEq α] [LawfulBEq α]

theorem splitOn_append_replicate (l : List α) (sep : α) (n : ℕ) :
    (l ++ List.replicate n sep).splitOn sep = l.splitOn sep ++ List.replicate n [] := by
  induction n with
  | zero => simp
  | succ n ih =>
    rw [List.replicate_succ', List.replicate_succ', ← List.append_assoc,
      List.splitOn_append_cons_self, ih, List.append_assoc, List.splitOn_nil]

theorem infix_of_mem_splitOn {l piece : List α} (h : piece ∈ l.splitOn sep) : piece <:+: l := by
  rw [← @List.intercalate_splitOn _ l _ _ sep]
  exact infix_intercalate h

/-- No piece holds the separator. -/
theorem not_mem_of_mem_splitOn {l : List α} : ∀ piece ∈ l.splitOn sep, sep ∉ piece := by
  induction l with
  | nil => simp
  | cons c rest ih =>
    rw [List.splitOn_cons_eq_if_modifyHead]
    split
    · simpa using ih
    · rename_i hc
      cases hrest : rest.splitOn sep with
      | nil => simp
      | cons piece pieces =>
        simp only [hrest, List.forall_mem_cons] at ih
        have hcons : sep ∉ c :: piece :=
          List.not_mem_cons_of_ne_of_not_mem (fun he => hc (beq_iff_eq.mpr he.symm)) ih.1
        exact List.forall_mem_cons.mpr ⟨hcons, ih.2⟩

/-- Beside a separator a piece is shorter than the list. -/
theorem length_lt_of_mem_splitOn {l piece : List α} (hsep : sep ∈ l) (h : piece ∈ l.splitOn sep) :
    piece.length < l.length := by
  obtain ⟨before, after, hl⟩ := List.append_of_mem hsep
  rw [hl, List.splitOn_append_cons_self] at h
  rw [hl, List.length_append, List.length_cons]
  rcases List.mem_append.mp h with h | h
  · have hle := (infix_of_mem_splitOn h).length_le
    omega
  · have hle := (infix_of_mem_splitOn h).length_le
    omega

/-- The last piece is what stands behind the last separator, or the list itself. -/
theorem splitOn_last (sep : α) (l : List α) :
    (l.splitOn sep = [l] ∧ sep ∉ l) ∨ ∃ pieces last before, pieces ≠ [] ∧
      l.splitOn sep = pieces ++ [last] ∧ l = before ++ sep :: last := by
  rcases List.eq_nil_or_concat (l.splitOn sep) with hnil | ⟨pieces, last, hsplit⟩
  · exact absurd hnil (List.splitOn_ne_nil sep l)
  · rw [List.concat_eq_append] at hsplit
    have hl := @List.intercalate_splitOn _ l _ _ sep
    by_cases hpieces : pieces = []
    · rw [hsplit, hpieces, List.nil_append, List.intercalate_singleton] at hl
      subst hl
      refine Or.inl ⟨by rw [hsplit, hpieces, List.nil_append], ?_⟩
      exact not_mem_of_mem_splitOn last (by rw [hsplit]; simp)
    · rw [hsplit, intercalate_concat sep hpieces] at hl
      exact Or.inr ⟨pieces, last, _, hpieces, hsplit, hl.symm⟩

end LukePanel.Library.SplitLists
