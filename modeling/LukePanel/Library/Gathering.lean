import Mathlib.Data.List.Nodup

/-! # Lists that lose and change nothing

When mapping what a filter leaves is mapping the whole list, and when rows gathered by the
normalized keys they belong to are the rows of the keys themselves. -/
namespace LukePanel.Library.Gathering

theorem map_filter_eq_map_iff {α β : Type} {p : α → Bool} {f g : α → β} {l : List α} :
    (l.filter p).map f = l.map g ↔ ∀ a ∈ l, p a = true ∧ f a = g a := by
  induction l with
  | nil => simp
  | cons a rest ih =>
    by_cases hp : p a = true
    · rw [List.filter_cons_of_pos hp, List.map_cons, List.map_cons, List.cons.injEq, ih,
        List.forall_mem_cons, and_iff_right hp]
    · refine iff_of_false (fun heq => ?_) fun hall => hp (hall a List.mem_cons_self).1
      have hlen := congrArg List.length heq
      have hle := List.length_filter_le p rest
      simp only [List.filter_cons_of_neg hp, List.length_map, List.length_cons] at hlen
      omega

variable {α β : Type} [DecidableEq α] {ks : List α} {norm : α → α} {rows v : α → List β}

/-- The rows of the keys that are the same key when normalized. -/
def gathered (ks : List α) (norm : α → α) (rows : α → List β) (key : α) : List β :=
  ks.flatMap fun k => if norm k = key then rows k else []

theorem gathered_eq_nil {key : α} (h : ∀ k ∈ ks, norm k ≠ key) : gathered ks norm rows key = [] :=
  List.flatMap_eq_nil_iff.mpr fun k hk => if_neg (h k hk)

theorem gathered_of_fixed (hnodup : ks.Nodup) (hfix : ∀ k ∈ ks, norm k = k) {key : α}
    (hmem : key ∈ ks) : gathered ks norm rows key = rows key := by
  induction ks with
  | nil => cases hmem
  | cons k rest ih =>
    obtain ⟨hk, hrest⟩ := List.nodup_cons.mp hnodup
    obtain ⟨hfixk, hfixrest⟩ := List.forall_mem_cons.mp hfix
    by_cases heq : k = key
    · have hnil : gathered rest norm rows key = [] := gathered_eq_nil fun k' hk' hnorm => by
        rw [hfixrest k' hk', ← heq] at hnorm
        exact hk (hnorm ▸ hk')
      calc gathered (k :: rest) norm rows key
          = (if norm k = key then rows k else []) ++ gathered rest norm rows key := rfl
        _ = rows key := by rw [hnil, if_pos (hfixk.trans heq), List.append_nil, heq]
    · calc gathered (k :: rest) norm rows key
          = (if norm k = key then rows k else []) ++ gathered rest norm rows key := rfl
        _ = gathered rest norm rows key := by rw [hfixk, if_neg heq, List.nil_append]
        _ = rows key := ih hrest hfixrest
              ((List.mem_cons.mp hmem).resolve_left fun hkey => heq hkey.symm)

/-- Two keys add both their rows. -/
theorem length_gathered_of_two (rows : α → List β) {k k' : α} (hk : k ∈ ks) (hk' : k' ∈ ks) (hne : k ≠ k')
    (hnorm : norm k = norm k') :
    (rows k).length + (rows k').length ≤ (gathered ks norm rows (norm k)).length := by
  have hmem : k' ∈ ks.erase k := (List.mem_erase_of_ne hne.symm).mpr hk'
  have hperm : ks.Perm (k :: k' :: (ks.erase k).erase k') :=
    (List.perm_cons_erase hk).trans ((List.perm_cons_erase hmem).cons k)
  have hlen := (hperm.flatMap_right fun j => if norm j = norm k then rows j else []).length_eq
  simp only [List.flatMap_cons, List.length_append, if_pos hnorm.symm, if_true] at hlen
  unfold gathered
  omega

/-- Rows gathered by their normalized keys are what was there under each key only if no key
changes, since every key adds a row. -/
theorem gathered_eq_iff (hnodup : ks.Nodup) (hidem : ∀ k ∈ ks, norm (norm k) = norm k)
    (hrows : ∀ k ∈ ks, rows k ≠ [] ∧ (v k).length ≤ (rows k).length)
    (hnone : ∀ k ∉ ks, v k = []) :
    (∀ key, gathered ks norm rows key = v key) ↔ ∀ k ∈ ks, norm k = k ∧ rows k = v k := by
  refine ⟨fun h => ?_, fun h key => ?_⟩
  · have hfix : ∀ k ∈ ks, norm k = k := by
      intro k hk
      by_contra hne
      have hpos := List.length_pos_of_ne_nil (hrows k hk).1
      have hmem : norm k ∈ ks := by
        by_contra hout
        have hnil := List.flatMap_eq_nil_iff.mp ((h (norm k)).trans (hnone _ hout)) k hk
        rw [if_pos rfl] at hnil
        exact (hrows k hk).1 hnil
      have htwo := length_gathered_of_two rows hk hmem (Ne.symm hne) (hidem k hk).symm
      rw [h (norm k)] at htwo
      have hle := (hrows _ hmem).2
      omega
    exact fun k hk => ⟨hfix k hk, (gathered_of_fixed hnodup hfix hk).symm.trans (h k)⟩
  · by_cases hmem : key ∈ ks
    · rw [gathered_of_fixed hnodup (fun k hk => (h k hk).1) hmem, (h key hmem).2]
    · rw [hnone key hmem]
      exact gathered_eq_nil fun k hk hnorm => hmem (hnorm.symm.trans (h k hk).1 ▸ hk)

end LukePanel.Library.Gathering
