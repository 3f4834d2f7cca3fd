import Mathlib.Data.Set.Lattice

/-! # Words that stand for sets

Words of a list mean some sets each, and different words may mean the same. A word is taken out of
the list, and the words of a base are always on it. -/
namespace LukePanel.Library.Coverage

variable {ω α : Type*} (meaning : ω → Set (Set α))

/-- The sets that the words of a list mean. -/
def family (words : List ω) : Set (Set α) := {A | ∃ w ∈ words, A ∈ meaning w}

/-- What the sets cover. -/
def covered (words : List ω) : Set α := ⋃₀ family meaning words

variable {meaning} {old new others base : List ω} {word : ω} {A : Set α} {x : α}

theorem mem_covered : x ∈ covered meaning old ↔ ∃ w ∈ old, ∃ B ∈ meaning w, x ∈ B := by
  rw [covered, Set.mem_sUnion]
  constructor
  · rintro ⟨B, ⟨w, hw, hB⟩, hx⟩
    exact ⟨w, hw, B, hB, hx⟩
  · rintro ⟨w, hw, B, hB, hx⟩
    exact ⟨B, ⟨w, hw, hB⟩, hx⟩

theorem covered_congr (h : ∀ w, w ∈ new ↔ w ∈ old) : covered meaning new = covered meaning old := by
  ext x
  simp only [mem_covered, h]

/-- A word is put on the list. -/
theorem family_add (hword : meaning word = {A})
    (hnew : ∀ w, w ∈ new ↔ w ∈ old ∨ w = word ∨ w ∈ base) :
    family meaning new = insert A (family meaning old) ∪ family meaning base := by
  ext B
  constructor
  · rintro ⟨w, hw, hB⟩
    rcases (hnew w).mp hw with hw | rfl | hw
    · exact .inl (.inr ⟨w, hw, hB⟩)
    · exact .inl (.inl (by rwa [hword] at hB))
    · exact .inr ⟨w, hw, hB⟩
  · rintro ((rfl | ⟨w, hw, hB⟩) | ⟨w, hw, hB⟩)
    · exact ⟨word, (hnew word).mpr (.inr (.inl rfl)), by rw [hword]; rfl⟩
    · exact ⟨w, (hnew w).mpr (.inl hw), hB⟩
    · exact ⟨w, (hnew w).mpr (.inr (.inr hw)), hB⟩

section
variable (hword : meaning word = {A}) (hold : ∀ w ∈ old, w ∈ others ∨ w = word)
  (hothers : others ⊆ old) (hnew : ∀ w, w ∈ new ↔ w ∈ others ∨ w ∈ base)
include hword hold hnew

/-- What the word does not cover stays covered. -/
theorem covered_remove (hx : x ∈ covered meaning old) (hA : x ∉ A) : x ∈ covered meaning new := by
  obtain ⟨w, hw, B, hB, hmem⟩ := mem_covered.mp hx
  refine mem_covered.mpr ⟨w, (hnew w).mpr (.inl ((hold w hw).resolve_right ?_)), B, hB, hmem⟩
  rintro rfl
  rw [hword, Set.mem_singleton_iff] at hB
  exact hA (hB ▸ hmem)

include hothers

/-- Taking a word off the list takes off what it means exactly if no other word means the same, or
the base means it. -/
theorem family_remove_iff :
    family meaning new = family meaning old \ {A} ∪ family meaning base ↔
      A ∈ family meaning base ∨ A ∉ family meaning others := by
  constructor
  · intro h
    by_cases hbase : A ∈ family meaning base
    · exact .inl hbase
    · refine .inr fun hmem => ?_
      obtain ⟨w, hw, hA⟩ := hmem
      have hmem : A ∈ family meaning new := ⟨w, (hnew w).mpr (.inl hw), hA⟩
      rw [h] at hmem
      rcases hmem with hmem | hmem
      · exact hmem.2 rfl
      · exact hbase hmem
  · intro h
    ext B
    constructor
    · rintro ⟨w, hw, hB⟩
      rcases (hnew w).mp hw with hw | hw
      · by_cases hBA : B = A
        · subst hBA
          exact .inr (h.resolve_right fun hother => hother ⟨w, hw, hB⟩)
        · exact .inl ⟨⟨w, hothers hw, hB⟩, hBA⟩
      · exact .inr ⟨w, hw, hB⟩
    · rintro (⟨⟨w, hw, hB⟩, hBA⟩ | ⟨w, hw, hB⟩)
      · refine ⟨w, (hnew w).mpr (.inl ((hold w hw).resolve_right ?_)), hB⟩
        rintro rfl
        rw [hword] at hB
        exact hBA hB
      · exact ⟨w, (hnew w).mpr (.inr hw), hB⟩

end

end LukePanel.Library.Coverage
