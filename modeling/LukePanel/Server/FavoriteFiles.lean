import LukePanel.Server.FilePreferences

/-! # What a change of the favourites leaves

`Favorite` sorts the favourites by name and cuts them to 100, and changes them in memory before it
saves. -/
namespace LukePanel.Server.FavoriteFiles
open LukePanel.Library.Machine LukePanel.Server.FilePreferences

/-- On success the entry is there, or is gone, and all others are kept, in memory and in the file; on
an error nothing has changed. -/
structure Done (entry : FilePreferenceEntry) (enabled : Bool) (s : Store) (answer : Bool × Store) :
    Prop where
  present : answer.1 = true → enabled = true → named entry ∈ answer.2.data.favorites
  absent : answer.1 = true → enabled = false →
    ∀ item ∈ answer.2.data.favorites, item.path ≠ (named entry).path
  others : answer.1 = true → ∀ item ∈ s.data.favorites, item.path ≠ (named entry).path →
    item ∈ answer.2.data.favorites
  length : answer.1 = true → answer.2.data.favorites.length ≤ 100
  paths : answer.1 = true → (answer.2.data.favorites.map (·.path)).Nodup
  file : answer.1 = true → answer.2.file = some answer.2.data
  error : answer.1 = false → answer.2 = s

/-- There is room: an entry goes, replaces one of its path, or is one of at most 100. -/
def Room (entry : FilePreferenceEntry) (enabled : Bool) (favorites : List FilePreferenceEntry) :
    Prop :=
  enabled = false ∨ found (named entry) favorites = true ∨ favorites.length < 100

/-- The call asks for what there is already: the favourites are as the sort leaves them, and the
entry is one of them, or is to go and is not there, or comes after 100 others. -/
def Settled (order : NameOrder) (entry : FilePreferenceEntry) (enabled : Bool)
    (favorites : List FilePreferenceEntry) : Prop :=
  (order.sort favorites = favorites ∧ enabled = true ∧ named entry ∈ favorites) ∨
  (order.sort favorites = favorites ∧ enabled = false ∧ found (named entry) favorites = false) ∨
  (order.sort (favorites ++ [named entry]) = favorites ++ [named entry] ∧ enabled = true ∧
    found (named entry) favorites = false ∧ favorites.length = 100)

variable {order : NameOrder} {entry : FilePreferenceEntry} {enabled saved : Bool} {s : Store}
  {favorites : List FilePreferenceEntry}

/-! ## A save that succeeds -/

theorem length_rewritten_le_iff (h : favorites.length ≤ 100) :
    (rewritten (named entry) enabled favorites).length ≤ 100 ↔ Room entry enabled favorites := by
  have hle := length_rewritten_le (named entry) enabled favorites
  unfold Room
  cases enabled with
  | false =>
    rw [Bool.false_and, if_neg Bool.false_ne_true] at hle
    exact ⟨fun _ => Or.inl rfl, fun _ => by omega⟩
  | true =>
    cases hfound : found (named entry) favorites with
    | true =>
      rw [hfound, Bool.not_true, Bool.and_false, if_neg Bool.false_ne_true] at hle
      exact ⟨fun _ => Or.inr (Or.inl rfl), fun _ => by omega⟩
    | false =>
      rw [rewritten_new hfound, List.length_append, List.length_singleton]
      constructor
      · intro hroom
        exact Or.inr (Or.inr (by omega))
      · rintro (hnot | hnot | hlt)
        · cases hnot
        · cases hnot
        · omega

/-- With room the list is what the loop leaves, in another order. -/
theorem mem_favorited (h : favorites.length ≤ 100) (hroom : Room entry enabled favorites)
    {item : FilePreferenceEntry} :
    item ∈ favorited order entry enabled favorites ↔ item ∈ rewritten (named entry) enabled favorites := by
  have hperm := order.perm (rewritten (named entry) enabled favorites)
  unfold favorited
  rw [List.take_of_length_le (by rw [hperm.length_eq]; exact (length_rewritten_le_iff h).mpr hroom)]
  exact hperm.mem_iff

/-- The others stay in the loop. -/
theorem mem_rewritten {item : FilePreferenceEntry} (h : item ∈ favorites)
    (hother : item.path ≠ entry.path) : item ∈ rewritten entry enabled favorites := by
  unfold rewritten
  refine List.mem_append_left _ (List.mem_filterMap.mpr ⟨item, h, ?_⟩)
  rw [if_neg hother]

theorem entry_mem_rewritten : entry ∈ rewritten entry true favorites := by
  cases hfound : found entry favorites with
  | true =>
    obtain ⟨item, hitem, hpath⟩ := found_iff.mp hfound
    rw [rewritten_found hfound]
    exact List.mem_map.mpr ⟨item, hitem, if_pos hpath⟩
  | false =>
    rw [rewritten_new hfound]
    simp

/-- Without room one of 101 entries goes. -/
theorem room_of_subset (hpaths : (favorites.map (·.path)).Nodup)
    (hlength : favorites.length ≤ 100)
    (h : ∀ item ∈ rewritten (named entry) enabled favorites,
      item ∈ favorited order entry enabled favorites) : Room entry enabled favorites := by
  have hnodup : (rewritten (named entry) enabled favorites).Nodup :=
    (nodup_rewritten (named entry) enabled hpaths).of_map _
  have hle := (List.subperm_of_subset hnodup h).length_le
  exact (length_rewritten_le_iff hlength).mp (Nat.le_trans hle (List.length_take_le _ _))

theorem of_mem_rewritten {item : FilePreferenceEntry}
    (h : item ∈ rewritten (named entry) enabled favorites) :
    (enabled = true ∧ item = named entry) ∨
      (item ∈ favorites ∧ item.path ≠ (named entry).path) := by
  cases enabled with
  | false =>
    rw [rewritten_removed] at h
    obtain ⟨hitem, hpath⟩ := List.mem_filter.mp h
    exact Or.inr ⟨hitem, of_decide_eq_true hpath⟩
  | true =>
    cases hfound : found (named entry) favorites with
    | true =>
      rw [rewritten_found hfound] at h
      obtain ⟨other, hother, rfl⟩ := List.mem_map.mp h
      split
      · exact Or.inl ⟨rfl, rfl⟩
      · rename_i hpath
        exact Or.inr ⟨hother, hpath⟩
    | false =>
      rw [rewritten_new hfound] at h
      rcases List.mem_append.mp h with hitem | hitem
      · refine Or.inr ⟨hitem, fun hpath => ?_⟩
        rw [found_iff.mpr ⟨item, hitem, hpath⟩] at hfound
        cases hfound
      · exact Or.inl ⟨rfl, List.mem_singleton.mp hitem⟩

/-! ## A save that fails -/

theorem filter_eq_self : favorites.filter (·.path ≠ (named entry).path) = favorites ↔
    found (named entry) favorites = false := by
  rw [List.filter_eq_self, ← Bool.not_eq_true, found_iff]
  constructor
  · rintro h ⟨item, hitem, hpath⟩
    exact of_decide_eq_true (h item hitem) hpath
  · exact fun h item hitem => decide_eq_true fun hpath => h ⟨item, hitem, hpath⟩

/-- A removal leaves the list as it is. -/
theorem removed_eq_self (hlength : favorites.length ≤ 100) :
    favorited order entry false favorites = favorites ↔
      order.sort favorites = favorites ∧ found (named entry) favorites = false := by
  have hperm := order.perm (favorites.filter (·.path ≠ (named entry).path))
  have hshort : favorited order entry false favorites =
      order.sort (favorites.filter (·.path ≠ (named entry).path)) := by
    rw [favorited, rewritten_removed, List.take_of_length_le]
    rw [hperm.length_eq]
    exact Nat.le_trans (List.length_filter_le _ _) hlength
  rw [hshort, ← filter_eq_self]
  constructor
  · intro h
    have hall : favorites.filter (·.path ≠ (named entry).path) = favorites :=
      List.filter_sublist.eq_of_length (by rw [← hperm.length_eq, h])
    rw [hall] at h
    exact ⟨h, hall⟩
  · rintro ⟨hsorted, hall⟩
    rw [hall, hsorted]

theorem rewritten_of_mem (hpaths : (favorites.map (·.path)).Nodup) (hmem : named entry ∈ favorites) :
    rewritten (named entry) true favorites = favorites := by
  have hid : favorites.map (fun item =>
      if item.path = (named entry).path then named entry else item) = favorites.map id := by
    refine List.map_congr_left fun item hitem => ?_
    split
    · rename_i hpath
      exact (List.inj_on_of_nodup_map hpaths hitem hmem hpath).symm
    · rfl
  rw [rewritten_found (found_iff.mpr ⟨_, hmem, rfl⟩), hid, List.map_id]

/-- An entry in place of one of its path leaves the list as it is. -/
theorem replaced_eq_self (hpaths : (favorites.map (·.path)).Nodup) (hlength : favorites.length ≤ 100)
    (hfound : found (named entry) favorites = true) :
    favorited order entry true favorites = favorites ↔
      order.sort favorites = favorites ∧ named entry ∈ favorites := by
  have hperm := order.perm (rewritten (named entry) true favorites)
  have hshort : favorited order entry true favorites =
      order.sort (rewritten (named entry) true favorites) := by
    rw [favorited, List.take_of_length_le]
    rw [hperm.length_eq]
    exact (length_rewritten_le_iff hlength).mpr (Or.inr (Or.inl hfound))
  rw [hshort]
  constructor
  · intro h
    rw [h] at hperm
    have hmem : named entry ∈ favorites := hperm.mem_iff.mpr entry_mem_rewritten
    rw [rewritten_of_mem hpaths hmem] at h
    exact ⟨h, hmem⟩
  · rintro ⟨hsorted, hmem⟩
    rw [rewritten_of_mem hpaths hmem, hsorted]

/-- A new entry leaves the list as it is. -/
theorem added_eq_self (hlength : favorites.length ≤ 100)
    (hfound : found (named entry) favorites = false) :
    favorited order entry true favorites = favorites ↔
      order.sort (favorites ++ [named entry]) = favorites ++ [named entry] ∧
        favorites.length = 100 := by
  have hperm := order.perm (favorites ++ [named entry])
  rw [favorited, rewritten_new hfound]
  constructor
  · intro h
    have hfull : favorites.length = 100 := by
      have hlengths := congrArg List.length h
      rw [List.length_take, hperm.length_eq, List.length_append, List.length_singleton] at hlengths
      omega
    have hparts : favorites ++ (order.sort (favorites ++ [named entry])).drop 100 =
        order.sort (favorites ++ [named entry]) := by
      have hall := List.take_append_drop 100 (order.sort (favorites ++ [named entry]))
      rw [h] at hall
      exact hall
    rw [← hparts, List.perm_append_left_iff, List.perm_singleton] at hperm
    rw [hperm] at hparts
    exact ⟨hparts.symm, hfull⟩
  · rintro ⟨hsorted, hfull⟩
    rw [hsorted, ← hfull]
    exact List.take_left

/-- The list is rewritten as it is. -/
theorem favorited_eq_self (hpaths : (favorites.map (·.path)).Nodup)
    (hlength : favorites.length ≤ 100) :
    favorited order entry enabled favorites = favorites ↔ Settled order entry enabled favorites := by
  unfold Settled
  cases enabled with
  | false =>
    rw [removed_eq_self hlength]
    simp
  | true =>
    cases hfound : found (named entry) favorites with
    | true =>
      rw [replaced_eq_self hpaths hlength hfound]
      simp
    | false =>
      have hnot : named entry ∉ favorites := by
        intro hmem
        rw [found_iff.mpr ⟨_, hmem, rfl⟩] at hfound
        cases hfound
      rw [added_eq_self hlength hfound]
      simp [hnot]

/-! ## Every call -/

/-- **What a change of the favourites leaves.** In every state of the store: a call whose save
succeeds does what is asked and keeps the other favourites if and only if there is room, and a call
whose save fails changes nothing if and only if there is nothing to change. -/
theorem favorite_iff (h : Reaches (step order) Free emptyStore s) :
    Done entry enabled s (favorite order entry enabled saved s) ↔
      if saved = true then Room entry enabled s.data.favorites
      else Settled order entry enabled s.data.favorites := by
  have hsound := (sound_reaches h).1
  have hsound' := hsound.favorited order entry enabled
  rw [favorite_eq]
  cases saved with
  | true =>
    rw [if_pos rfl]
    constructor
    · intro hdone
      refine @room_of_subset order entry enabled s.data.favorites hsound.favoritePaths
        hsound.favorites fun item hitem => ?_
      rcases of_mem_rewritten hitem with ⟨henabled, rfl⟩ | ⟨hmem, hpath⟩
      · exact hdone.present rfl henabled
      · exact hdone.others rfl item hmem hpath
    · intro hroom
      have hmem : ∀ item, item ∈ favorited order entry enabled s.data.favorites ↔
          item ∈ rewritten (named entry) enabled s.data.favorites :=
        fun item => mem_favorited hsound.favorites hroom
      refine ⟨fun _ henabled => ?_, fun _ hremoved item hitem => ?_, fun _ item hitem hpath => ?_,
        fun _ => hsound'.favorites, fun _ => hsound'.favoritePaths, fun _ => rfl,
        fun hfailed => Bool.noConfusion hfailed⟩
      · subst henabled
        exact (hmem _).mpr entry_mem_rewritten
      · rcases of_mem_rewritten ((hmem item).mp hitem) with ⟨henabled, -⟩ | ⟨-, hpath⟩
        · rw [hremoved] at henabled
          cases henabled
        · exact hpath
      · exact (hmem item).mpr (mem_rewritten hitem hpath)
  | false =>
    rw [if_neg Bool.false_ne_true, ← favorited_eq_self hsound.favoritePaths hsound.favorites]
    constructor
    · intro hdone
      have hsame : ({ s with data := { s.data with
          favorites := favorited order entry enabled s.data.favorites } } : Store) = s :=
        hdone.error rfl
      exact congrArg (fun t : Store => t.data.favorites) hsame
    · intro hsame
      refine ⟨fun h => Bool.noConfusion h, fun h => Bool.noConfusion h, fun h => Bool.noConfusion h,
        fun h => Bool.noConfusion h, fun h => Bool.noConfusion h, fun h => Bool.noConfusion h,
        fun _ => ?_⟩
      rw [hsame]
      rfl

/-! ## At the limit, and without a disk -/

/-- The store with one favourite. -/
theorem one_reached : Reaches (step byName) Free emptyStore
    (favorite byName (plain "/etc/hosts") true true emptyStore).2 :=
  Reaches.refl.tail (a := (.favorite (plain "/etc/hosts") true, true)) trivial rfl

theorem added_done : Done (plain "/etc/fstab") true
    (favorite byName (plain "/etc/hosts") true true emptyStore).2
    (favorite byName (plain "/etc/fstab") true true
      (favorite byName (plain "/etc/hosts") true true emptyStore).2) :=
  (favorite_iff one_reached).mpr (Or.inr (Or.inr (by decide +kernel)))

/-- A save fails: the favourite is in memory and not in the file. -/
theorem failed_save_changes_memory :
    (favorite byName (plain "/etc/hosts") true false emptyStore).1 = false ∧
      (favorite byName (plain "/etc/hosts") true false emptyStore).2.data.favorites.length = 1 ∧
        ¬ Done (plain "/etc/hosts") true emptyStore
          (favorite byName (plain "/etc/hosts") true false emptyStore) := by
  have hanswer : (favorite byName (plain "/etc/hosts") true false emptyStore).1 = false := by
    decide +kernel
  have hone : (favorite byName (plain "/etc/hosts") true false emptyStore).2.data.favorites.length = 1 := by
    decide +kernel
  refine ⟨hanswer, hone, fun hdone => ?_⟩
  rw [hdone.error hanswer] at hone
  cases hone

end LukePanel.Server.FavoriteFiles
