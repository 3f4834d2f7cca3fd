import Mathlib.Data.List.Basic

/-! # Words

The pieces of a list between separators, without the empty ones. -/
namespace LukePanel.Library.Words

variable {α : Type} {sep : α → Bool}

def words (sep : α → Bool) (l : List α) : List (List α) := (l.splitOnP sep).filter (· ≠ [])

theorem words_nil : words sep ([] : List α) = [] := by simp [words]

theorem words_append_cons (before : List α) {c : α} (hc : sep c = true) (rest : List α) :
    words sep (before ++ c :: rest) = words sep before ++ words sep rest := by
  rw [words, List.splitOnP_append_cons _ _ hc, List.filter_append]
  rfl

theorem words_cons {c : α} (hc : sep c = true) (rest : List α) :
    words sep (c :: rest) = words sep rest := by
  have happend := words_append_cons [] hc rest
  rwa [words_nil] at happend

/-- Separators in front. -/
theorem words_append_left {before : List α} (h : ∀ c ∈ before, sep c = true) (rest : List α) :
    words sep (before ++ rest) = words sep rest := by
  induction before with
  | nil => rfl
  | cons c before ih =>
    rw [List.forall_mem_cons] at h
    rw [List.cons_append, words_cons h.1, ih h.2]

/-- Separators at the end. -/
theorem words_append_right (l : List α) {after : List α} (h : ∀ c ∈ after, sep c = true) :
    words sep (l ++ after) = words sep l := by
  cases after with
  | nil => rw [List.append_nil]
  | cons c after =>
    rw [List.forall_mem_cons] at h
    have hafter := words_append_left h.2 []
    rw [List.append_nil, words_nil] at hafter
    rw [words_append_cons l h.1, hafter, List.append_nil]

/-- A word stands in front. -/
theorem words_word_cons {word : List α} (hne : word ≠ []) (h : ∀ c ∈ word, sep c = false) {c : α}
    (hc : sep c = true) (rest : List α) :
    words sep (word ++ c :: rest) = word :: words sep rest := by
  rw [words, List.splitOnP_append_cons_of_forall_mem h c hc, List.filter_cons_of_pos (by simpa using hne)]
  rfl

theorem words_word {word : List α} (hne : word ≠ []) (h : ∀ c ∈ word, sep c = false) :
    words sep word = [word] := by
  rw [words, List.splitOnP_eq_singleton h, List.filter_cons_of_pos (by simpa using hne), List.filter_nil]

theorem exists_mem_words_cons {c : α} (hc : sep c = false) (rest : List α) :
    ∃ word ∈ words sep (c :: rest), word.head? = some c := by
  obtain ⟨piece, pieces, hsplit⟩ := List.exists_cons_of_ne_nil (List.splitOnP_ne_nil sep rest)
  refine ⟨c :: piece, List.mem_filter.mpr ⟨?_, by simp⟩, rfl⟩
  rw [List.splitOnP_cons_eq_if_modifyHead, hc, hsplit]
  exact List.mem_cons_self

/-- Words with one separator between are read back. -/
theorem words_intercalate {pieces : List (List α)} (hne : ∀ piece ∈ pieces, piece ≠ [])
    (h : ∀ piece ∈ pieces, ∀ c ∈ piece, sep c = false) {c : α} (hc : sep c = true) :
    words sep ([c].intercalate pieces) = pieces := by
  induction pieces with
  | nil => exact words_nil
  | cons piece rest ih =>
    rw [List.forall_mem_cons] at hne h
    cases rest with
    | nil => rw [List.intercalate_singleton, words_word hne.1 h.1]
    | cons next rest =>
      rw [List.intercalate_cons_cons, List.append_assoc, List.singleton_append,
        words_word_cons hne.1 h.1 hc, ih hne.2 h.2]

theorem flatten_filter_ne_nil (pieces : List (List α)) :
    (pieces.filter (· ≠ [])).flatten = pieces.flatten := by
  induction pieces with
  | nil => rfl
  | cons piece rest ih =>
    rw [List.filter_cons, List.flatten_cons, ← ih]
    cases piece with
    | nil => rfl
    | cons => simp

theorem flatten_splitOnP (l : List α) : (l.splitOnP sep).flatten = l.filter (!sep ·) := by
  induction l with
  | nil => simp
  | cons c l ih =>
    obtain ⟨piece, pieces, hsplit⟩ := List.exists_cons_of_ne_nil (List.splitOnP_ne_nil sep l)
    rw [hsplit] at ih
    rw [List.splitOnP_cons_eq_if_modifyHead, hsplit, List.filter_cons, ← ih]
    cases sep c <;> simp

/-- The words are what is no separator. -/
theorem flatten_words (l : List α) : (words sep l).flatten = l.filter (!sep ·) := by
  rw [words, flatten_filter_ne_nil, flatten_splitOnP]

theorem ne_nil_of_mem_words {l word : List α} (h : word ∈ words sep l) : word ≠ [] := by
  simpa using (List.mem_filter.mp h).2

theorem sep_of_mem_words {l word : List α} (h : word ∈ words sep l) {c : α} (hc : c ∈ word) :
    sep c = false := by
  have hmem : c ∈ (words sep l).flatten := List.mem_flatten.mpr ⟨word, h, hc⟩
  rw [flatten_words, List.mem_filter] at hmem
  simpa using hmem.2

end LukePanel.Library.Words
