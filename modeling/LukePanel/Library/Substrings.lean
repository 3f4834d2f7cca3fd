import Mathlib.Data.List.Infix

/-! # Substrings and separators

Where a word that begins or ends with a separator can occur in a text made of parts. -/
namespace LukePanel.Library.Substrings

variable {α : Type} {c : α} {word part rest : List α}

/-- A word that begins with a separator does not begin in a part without it. -/
theorem infix_append_iff (hpart : c ∉ part) : c :: word <:+: part ++ rest ↔ c :: word <:+: rest := by
  induction part with
  | nil => rfl
  | cons a part ih =>
    obtain ⟨hne, hpart⟩ := not_or.mp (mt List.mem_cons.mpr hpart)
    rw [List.cons_append, List.infix_cons_iff, ih hpart]
    refine or_iff_right fun hpre => hne ?_
    exact (List.cons_prefix_cons.mp hpre).1

/-- A word that ends with a separator does not end in a part without it. -/
theorem concat_infix_append_iff (hrest : c ∉ rest) :
    word ++ [c] <:+: part ++ rest ↔ word ++ [c] <:+: part := by
  rw [← List.reverse_infix, List.reverse_append, List.reverse_append, List.reverse_singleton,
    List.singleton_append, infix_append_iff (by simpa using hrest), ← List.reverse_infix,
    List.reverse_reverse]
  simp

theorem concat_prefix_append_iff (hrest : c ∉ rest) :
    word ++ [c] <+: part ++ rest ↔ word ++ [c] <+: part := by
  constructor
  · intro h
    rcases List.prefix_or_prefix_of_prefix h (List.prefix_append part rest) with hpre | ⟨more, hmore⟩
    · exact hpre
    · by_cases hnil : more = []
      · rw [← hmore, hnil, List.append_nil]
      · rw [← hmore, List.prefix_append_right_inj] at h
        have hlast : more.getLast hnil = c := by
          have hend := congrArg List.getLast? hmore
          simpa [List.getLast?_append, List.getLast?_eq_some_getLast hnil] using hend
        exact absurd (h.subset (hlast ▸ List.getLast_mem hnil)) hrest
  · exact fun h => h.trans (List.prefix_append _ _)

/-! ## Cutting at a part -/

variable [DecidableEq α]

/-- What stands before the first occurrence of a part, and what behind it. -/
def cut (part : List α) : List α → Option (List α × List α)
  | [] => if part = [] then some ([], []) else none
  | a :: l =>
    if part <+: a :: l then some ([], (a :: l).drop part.length)
    else (cut part l).map fun r => (a :: r.1, r.2)

theorem cut_prefix (rest : List α) : cut (c :: word) (c :: word ++ rest) = some ([], rest) := by
  have hprefix : c :: word <+: c :: (word ++ rest) := List.prefix_append (c :: word) rest
  rw [List.cons_append, cut, if_pos hprefix, ← List.cons_append, List.drop_left]

/-- A part whose second element is not in front of it, and is not the first, does not begin there. -/
theorem cut_append {d : α} (hne : c ≠ d) {before : List α} (hbefore : d ∉ before) (rest : List α) :
    cut (c :: d :: word) (before ++ (c :: d :: word ++ rest)) = some (before, rest) := by
  induction before with
  | nil => exact cut_prefix rest
  | cons a before ih =>
    rw [List.mem_cons, not_or] at hbefore
    have hnot : ¬ c :: d :: word <+: a :: (before ++ (c :: d :: word ++ rest)) := by
      intro h
      have htail := (List.cons_prefix_cons.mp h).2
      cases before with
      | nil => exact hne (List.cons_prefix_cons.mp htail).1.symm
      | cons b before => exact hbefore.2 ((List.cons_prefix_cons.mp htail).1 ▸ List.mem_cons_self)
    rw [List.cons_append, cut, if_neg hnot, ih hbefore.2]
    rfl

end LukePanel.Library.Substrings
