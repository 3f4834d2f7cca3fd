import Mathlib.Data.List.Infix

/-! # Patterns with wildcards

The `LIKE` operator of SQL: `%` stands for any run of characters and `_` for one, and letters of
ASCII match in either case. A pattern without wildcards between two `%` looks for its text. -/
namespace LukePanel.Library.Wildcards

def likeChars : List Char → List Char → Bool
  | [], s => s.isEmpty
  | c :: p, s =>
    if c = '%' then s.tails.any (likeChars p)
    else (s.head?.any fun d => c == '_' || c.toLower == d.toLower) && likeChars p s.tail

def like (pattern s : String) : Bool := likeChars pattern.toList s.toList

example : like "%A_c%" "xxabcx" = true := by decide

/-- No character of the text stands for others. -/
def Plain (p : List Char) : Prop := ∀ c ∈ p, c ≠ '%' ∧ c ≠ '_'

instance : DecidablePred Plain := fun p => List.decidableBAll (fun c => c ≠ '%' ∧ c ≠ '_') p

theorem likeChars_any (p s : List Char) :
    likeChars ('%' :: p) s = true ↔ ∃ rest, rest <:+ s ∧ likeChars p rest = true := by
  rw [likeChars, if_pos rfl, List.any_eq_true]
  simp only [List.mem_tails]

theorem likeChars_rest (s : List Char) : likeChars ['%'] s = true :=
  (likeChars_any [] s).mpr ⟨[], List.nil_suffix, rfl⟩

/-- A plain text followed by `%` matches what begins with it. -/
theorem likeChars_plain {p : List Char} (hp : Plain p) (s : List Char) :
    likeChars (p ++ ['%']) s = true ↔ p.map Char.toLower <+: s.map Char.toLower := by
  induction p generalizing s with
  | nil => exact iff_of_true (likeChars_rest s) List.nil_prefix
  | cons c p ih =>
    obtain ⟨hc, hrest⟩ := List.forall_mem_cons.mp hp
    rw [List.cons_append, likeChars, if_neg hc.1, List.map_cons]
    cases s with
    | nil => simp
    | cons d s =>
      rw [List.map_cons, List.cons_prefix_cons, ← ih hrest s]
      simp [hc.2]

theorem infix_iff_suffix_prefix {α : Type*} {l s : List α} :
    l <:+: s ↔ ∃ rest, rest <:+ s ∧ l <+: rest := by
  constructor
  · rintro ⟨before, after, rfl⟩
    exact ⟨l ++ after, ⟨before, by rw [List.append_assoc]⟩, List.prefix_append _ _⟩
  · rintro ⟨rest, hsuffix, hstart⟩
    exact hstart.isInfix.trans hsuffix.isInfix

/-- A plain text between two `%` is looked for, in either case. -/
theorem likeChars_occurs {p : List Char} (hp : Plain p) (s : List Char) :
    likeChars ('%' :: p ++ ['%']) s = true ↔ p.map Char.toLower <:+: s.map Char.toLower := by
  rw [List.cons_append, likeChars_any, infix_iff_suffix_prefix]
  constructor
  · rintro ⟨rest, hrest, hlike⟩
    exact ⟨_, hrest.map _, (likeChars_plain hp rest).mp hlike⟩
  · rintro ⟨rest, hrest, hstart⟩
    obtain ⟨before, hs⟩ := hrest
    obtain ⟨s₁, s₂, rfl, _, hs₂⟩ := List.append_eq_map_iff.mp hs
    exact ⟨s₂, List.suffix_append _ _, (likeChars_plain hp s₂).mpr (hs₂ ▸ hstart)⟩

end LukePanel.Library.Wildcards
