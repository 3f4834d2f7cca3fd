import LukePanel.Library.Machine
import LukePanel.Library.SlashPath
import Mathlib.Data.List.Nodup
import Mathlib.Data.List.Perm.Subperm
import Mathlib.Data.List.Sort
import Mathlib.Data.String.Basic

/-! # Favourite and recent files

`FilePreferenceStore` of `internal/server/fileprefs.go`: the preferences in memory and in their file.
A time is in nanoseconds, the zero time is 0. -/
namespace LukePanel.Server.FilePreferences
open LukePanel.Library.Machine LukePanel.Library.SlashPath

structure FilePreferenceEntry where
  path : String
  name : String
  isDir : Bool
  lastAccess : ℕ
  lastModify : ℕ
  lastDownload : ℕ
  deriving DecidableEq, Repr

structure FilePreferencesData where
  favorites : List FilePreferenceEntry
  recent : List FilePreferenceEntry
  deriving DecidableEq

structure Store where
  data : FilePreferencesData
  file : Option FilePreferencesData
  deriving DecidableEq

/-- `sort.Slice` by `strings.ToLower` of the names; equal names come in any order. -/
structure NameOrder where
  lower : String → String
  sort : List FilePreferenceEntry → List FilePreferenceEntry
  perm : ∀ l, (sort l).Perm l
  sorted : ∀ l, (sort l).Pairwise fun a b => lower a.name ≤ lower b.name

/-- The path is cleaned, and the name is its last element. -/
def named (entry : FilePreferenceEntry) : FilePreferenceEntry :=
  { entry with path := (clean entry.path).text, name := (clean entry.path).base }

/-- The file is replaced by a rename at the end, or left alone. -/
def saveLocked (saved : Bool) (s : Store) : Bool × Store :=
  if saved then (true, { s with file := some s.data }) else (false, s)

/-! ## Favourites -/

def found (entry : FilePreferenceEntry) (favorites : List FilePreferenceEntry) : Bool :=
  favorites.any fun item => item.path = entry.path

/-- The loop over the favourites, and the entry if it is new. -/
def rewritten (entry : FilePreferenceEntry) (enabled : Bool)
    (favorites : List FilePreferenceEntry) : List FilePreferenceEntry :=
  (favorites.filterMap fun item =>
    if item.path = entry.path then (if enabled then some entry else none) else some item) ++
  if enabled && !found entry favorites then [entry] else []

/-- `true` is `nil`. -/
def favorite (order : NameOrder) (entry : FilePreferenceEntry) (enabled saved : Bool) (s : Store) :
    Bool × Store :=
  let next := order.sort (rewritten (named entry) enabled s.data.favorites)
  let next := if 100 < next.length then next.take 100 else next
  saveLocked saved { s with data := { s.data with favorites := next } }

/-! ## Recent files -/

/-- The loop over the recent files; `first` is `next[0]`, and `others` are the entries behind it. -/
def touchLoop (entry : FilePreferenceEntry) : List FilePreferenceEntry → FilePreferenceEntry →
    List FilePreferenceEntry → FilePreferenceEntry × List FilePreferenceEntry
  | [], first, others => (first, others)
  | item :: rest, first, others =>
    if item.path = entry.path then
      touchLoop entry rest { first with
        lastModify :=
          if entry.lastModify < item.lastModify then item.lastModify else first.lastModify
        lastDownload :=
          if entry.lastDownload < item.lastDownload then item.lastDownload
          else first.lastDownload } others
    else
      let others := others ++ [item]
      if 50 ≤ others.length + 1 then (first, others) else touchLoop entry rest first others

/-- The entry with the time of the access, and of the action. -/
def stamped (entry : FilePreferenceEntry) (kind : String) (now : ℕ) : FilePreferenceEntry :=
  { named entry with
    lastAccess := now
    lastModify := if kind = "modify" then now else entry.lastModify
    lastDownload := if kind = "download" then now else entry.lastDownload }

def touch (entry : FilePreferenceEntry) (kind : String) (now : ℕ) (saved : Bool) (s : Store) :
    Bool × Store :=
  let entry := stamped entry kind now
  let next := touchLoop entry s.data.recent entry []
  saveLocked saved { s with data := { s.data with recent := next.1 :: next.2 } }

/-! ## The store -/

inductive Call where
  | favorite (entry : FilePreferenceEntry) (enabled : Bool)
  | touch (entry : FilePreferenceEntry) (kind : String) (now : ℕ)
  /-- `Reload`, or a new start. -/
  | reload

/-- A call, and whether its save succeeds. -/
def step (order : NameOrder) (s : Store) : Call × Bool → Option Store
  | (.favorite entry enabled, saved) => some (favorite order entry enabled saved s).2
  | (.touch entry kind now, saved) => some (touch entry kind now saved s).2
  | (.reload, _) => some { s with data := s.file.getD ⟨[], []⟩ }

def emptyStore : Store := ⟨⟨[], []⟩, none⟩

/-- The paths of both lists differ, and neither list is too long. -/
structure Sound (d : FilePreferencesData) : Prop where
  favoritePaths : (d.favorites.map (·.path)).Nodup
  favorites : d.favorites.length ≤ 100
  recentPaths : (d.recent.map (·.path)).Nodup
  recent : d.recent.length ≤ 50

variable {order : NameOrder} {entry : FilePreferenceEntry} {enabled saved : Bool} {kind : String}
  {now : ℕ} {s t : Store} {favorites recent : List FilePreferenceEntry}

/-! ## What the loops leave -/

theorem found_iff : found entry favorites = true ↔ ∃ item ∈ favorites, item.path = entry.path := by
  simp [found]

theorem rewritten_removed :
    rewritten entry false favorites = favorites.filter (·.path ≠ entry.path) := by
  unfold rewritten
  simp only [Bool.false_and, Bool.false_eq_true, if_false, List.append_nil]
  rw [← List.filterMap_eq_filter]
  congr 1
  funext item
  by_cases hitem : item.path = entry.path
  · simp [hitem, Option.guard]
  · simp [hitem, Option.guard]

theorem rewritten_found (h : found entry favorites = true) : rewritten entry true favorites =
    favorites.map fun item => if item.path = entry.path then entry else item := by
  unfold rewritten
  rw [h, ← List.filterMap_eq_map]
  simp only [Bool.not_true, Bool.and_false, Bool.false_eq_true, if_false, List.append_nil, if_true]
  congr 1
  funext item
  rw [Function.comp]
  split <;> rfl

theorem rewritten_new (h : found entry favorites = false) :
    rewritten entry true favorites = favorites ++ [entry] := by
  unfold rewritten
  rw [h]
  simp only [Bool.not_false, Bool.and_true, if_true]
  congr 1
  have hall : ∀ item ∈ favorites, item.path ≠ entry.path := by
    intro item hitem hpath
    rw [found_iff.mpr ⟨item, hitem, hpath⟩] at h
    cases h
  rw [List.filterMap_congr fun item hitem => if_neg (hall item hitem), List.filterMap_some]

theorem length_rewritten_le (entry : FilePreferenceEntry) (enabled : Bool)
    (favorites : List FilePreferenceEntry) : (rewritten entry enabled favorites).length ≤
      favorites.length + if enabled && !found entry favorites then 1 else 0 := by
  have hloop := List.length_filterMap_le (fun item : FilePreferenceEntry =>
    if item.path = entry.path then (if enabled then some entry else none) else some item) favorites
  unfold rewritten
  rw [List.length_append]
  cases enabled && !found entry favorites with
  | true => exact Nat.add_le_add_right hloop 1
  | false => exact hloop

/-- The paths still differ. -/
theorem nodup_rewritten (entry : FilePreferenceEntry) (enabled : Bool)
    (h : (favorites.map (·.path)).Nodup) :
    ((rewritten entry enabled favorites).map (·.path)).Nodup := by
  cases enabled with
  | false =>
    rw [rewritten_removed]
    exact h.sublist (List.filter_sublist.map _)
  | true =>
    cases hfound : found entry favorites with
    | true =>
      have hpaths : (fun item : FilePreferenceEntry => item.path) ∘
          (fun item => if item.path = entry.path then entry else item) = fun item => item.path := by
        funext item
        simp only [Function.comp]
        split
        · rename_i hitem
          exact hitem.symm
        · rfl
      rw [rewritten_found hfound, List.map_map, hpaths]
      exact h
    | false =>
      rw [rewritten_new hfound, List.map_append, List.map_singleton, ← List.concat_eq_append]
      refine List.Nodup.concat (fun hmem => ?_) h
      obtain ⟨item, hitem, hpath⟩ := List.mem_map.mp hmem
      rw [found_iff.mpr ⟨item, hitem, hpath⟩] at hfound
      cases hfound

/-- The entries behind the first one. -/
theorem touchLoop_others (first : FilePreferenceEntry) {others : List FilePreferenceEntry}
    (h : others.length < 49) : (touchLoop entry recent first others).2 =
      others ++ (recent.filter (·.path ≠ entry.path)).take (49 - others.length) := by
  induction recent generalizing first others with
  | nil => simp [touchLoop]
  | cons item rest ih =>
    rw [touchLoop]
    by_cases hitem : item.path = entry.path
    · rw [if_pos hitem, ih _ h, List.filter_cons_of_neg (by simpa using hitem)]
    · rw [if_neg hitem, List.filter_cons_of_pos (by simpa using hitem)]
      have hlength : (others ++ [item]).length = others.length + 1 := List.length_append
      simp only [hlength]
      split
      · have hone : 49 - others.length = 1 := by omega
        rw [hone, List.take_succ_cons, List.take_zero]
      · have hroom : 49 - others.length = 49 - (others.length + 1) + 1 := by omega
        rw [ih first (by omega), hlength, hroom, List.take_succ_cons, List.append_assoc]
        rfl

/-- What an entry of the touched path hands on. -/
def handed (entry first item : FilePreferenceEntry) : FilePreferenceEntry :=
  { first with
    lastModify := if entry.lastModify < item.lastModify then item.lastModify else first.lastModify
    lastDownload :=
      if entry.lastDownload < item.lastDownload then item.lastDownload else first.lastDownload }

/-- The old entry is seen if it comes before the list is full. -/
theorem touchLoop_first (hpaths : (recent.map (·.path)).Nodup) (first : FilePreferenceEntry)
    {others : List FilePreferenceEntry} (h : others.length < 49) :
    (touchLoop entry recent first others).1 =
      (((recent.take (49 - others.length)).find? (·.path = entry.path)).map
        (handed entry first)).getD first := by
  induction recent generalizing first others with
  | nil => simp [touchLoop]
  | cons item rest ih =>
    obtain ⟨hnot, hrest⟩ := List.nodup_cons.mp hpaths
    have hroom : 49 - others.length = 48 - others.length + 1 := by omega
    rw [touchLoop, hroom, List.take_succ_cons]
    by_cases hitem : item.path = entry.path
    · have hnone : (rest.take (49 - others.length)).find? (·.path = entry.path) = none := by
        rw [List.find?_eq_none]
        intro other hother hsame
        exact hnot (List.mem_map.mpr ⟨other, List.mem_of_mem_take hother,
          (of_decide_eq_true hsame).trans hitem.symm⟩)
      rw [if_pos hitem, ih hrest _ h, hnone, List.find?_cons_of_pos (by simpa using hitem)]
      rfl
    · rw [if_neg hitem, List.find?_cons_of_neg (by simpa using hitem)]
      have hlength : (others ++ [item]).length = others.length + 1 := List.length_append
      simp only [hlength]
      split
      · have hfull : 48 - others.length = 0 := by omega
        rw [hfull]
        rfl
      · rw [ih hrest first (by omega), hlength]
        have hsame : 49 - (others.length + 1) = 48 - others.length := by omega
        rw [hsame]

theorem path_touchLoop (hpaths : (recent.map (·.path)).Nodup) (first : FilePreferenceEntry) :
    (touchLoop entry recent first []).1.path = first.path ∧
      (touchLoop entry recent first []).1.lastAccess = first.lastAccess := by
  rw [touchLoop_first hpaths first (by decide)]
  cases (recent.take (49 - List.length [])).find? (·.path = entry.path) with
  | none => exact ⟨rfl, rfl⟩
  | some item => exact ⟨rfl, rfl⟩

/-! ## What a call leaves -/

theorem saveLocked_data (saved : Bool) (s : Store) : (saveLocked saved s).2.data = s.data := by
  cases saved <;> rfl

theorem saveLocked_file {d : FilePreferencesData} (h : (saveLocked saved s).2.file = some d) :
    d = s.data ∨ s.file = some d := by
  cases saved with
  | true => exact Or.inl (Option.some.inj h).symm
  | false => exact Or.inr h

/-- The favourites after a call. -/
def favorited (order : NameOrder) (entry : FilePreferenceEntry) (enabled : Bool)
    (favorites : List FilePreferenceEntry) : List FilePreferenceEntry :=
  (order.sort (rewritten (named entry) enabled favorites)).take 100

theorem favorite_eq (order : NameOrder) (entry : FilePreferenceEntry) (enabled saved : Bool)
    (s : Store) : favorite order entry enabled saved s = saveLocked saved { s with
      data := { s.data with favorites := favorited order entry enabled s.data.favorites } } := by
  unfold favorite favorited
  dsimp only
  split
  · rfl
  · rename_i hshort
    rw [List.take_of_length_le (Nat.not_lt.mp hshort)]

/-- The recent files after a call. -/
def touched (entry : FilePreferenceEntry) (recent : List FilePreferenceEntry) :
    List FilePreferenceEntry :=
  (touchLoop entry recent entry []).1 :: (recent.filter (·.path ≠ entry.path)).take 49

theorem touch_eq (entry : FilePreferenceEntry) (kind : String) (now : ℕ) (saved : Bool) (s : Store) :
    touch entry kind now saved s = saveLocked saved { s with
      data := { s.data with recent := touched (stamped entry kind now) s.data.recent } } := by
  unfold touch touched
  dsimp only
  rw [touchLoop_others (stamped entry kind now) (by decide)]
  rfl

theorem Sound.favorited {d : FilePreferencesData} (h : Sound d) (order : NameOrder)
    (entry : FilePreferenceEntry) (enabled : Bool) :
    Sound { d with favorites := favorited order entry enabled d.favorites } where
  favoritePaths := by
    have hpaths := nodup_rewritten (named entry) enabled h.favoritePaths
    have hsorted := ((order.perm (rewritten (named entry) enabled d.favorites)).map (·.path)).nodup_iff
    exact (hsorted.mpr hpaths).sublist ((List.take_sublist _ _).map _)
  favorites := List.length_take_le _ _
  recentPaths := h.recentPaths
  recent := h.recent

theorem nodup_touched (h : (recent.map (·.path)).Nodup) :
    ((touched entry recent).map (·.path)).Nodup := by
  rw [touched, List.map_cons, (path_touchLoop h entry).1]
  refine List.nodup_cons.mpr ⟨fun hmem => ?_, ?_⟩
  · obtain ⟨item, hitem, hpath⟩ := List.mem_map.mp hmem
    have hother := (List.mem_filter.mp (List.mem_of_mem_take hitem)).2
    exact of_decide_eq_true hother hpath
  · exact h.sublist (((List.take_sublist _ _).trans List.filter_sublist).map _)

theorem Sound.touched {d : FilePreferencesData} (h : Sound d) (entry : FilePreferenceEntry) :
    Sound { d with recent := touched entry d.recent } where
  favoritePaths := h.favoritePaths
  favorites := h.favorites
  recentPaths := nodup_touched h.recentPaths
  recent := by
    rw [FilePreferences.touched, List.length_cons]
    exact Nat.succ_le_succ (List.length_take_le _ _)

/-- What holds of the preferences in memory and of those in the file. -/
def Store.All (P : FilePreferencesData → Prop) (s : Store) : Prop :=
  P s.data ∧ ∀ d, s.file = some d → P d

theorem Store.All.save {P : FilePreferencesData → Prop} {d : FilePreferencesData} (h : s.All P)
    (hd : P d) (saved : Bool) : (saveLocked saved { s with data := d }).2.All P := by
  refine ⟨by rwa [saveLocked_data], fun d' hd' => ?_⟩
  rcases saveLocked_file hd' with rfl | hfile
  · exact hd
  · exact h.2 d' hfile

/-- What every call leaves of the preferences holds in every state, in memory and in the file. -/
theorem all_reaches {P : FilePreferencesData → Prop} {guard : Store → Call × Bool → Prop}
    (hempty : P ⟨[], []⟩)
    (hfavorite : ∀ d entry enabled, P d →
      P { d with favorites := favorited order entry enabled d.favorites })
    (htouch : ∀ s entry kind now saved, guard s (.touch entry kind now, saved) → P s.data →
      P { s.data with recent := touched (stamped entry kind now) s.data.recent })
    (h : Reaches (step order) guard emptyStore s) : s.All P := by
  refine h.invariant ⟨hempty, fun d hd => by cases hd⟩ ?_
  intro t call u ht hguard hstep
  obtain ⟨call, saved⟩ := call
  cases call with
  | favorite entry enabled =>
    obtain rfl := Option.some.inj hstep
    rw [favorite_eq]
    exact ht.save (hfavorite t.data entry enabled ht.1) saved
  | touch entry kind now =>
    obtain rfl := Option.some.inj hstep
    rw [touch_eq]
    exact ht.save (htouch t entry kind now saved hguard ht.1) saved
  | reload =>
    obtain rfl := Option.some.inj hstep
    refine ⟨?_, ht.2⟩
    cases hfile : t.file with
    | none => exact hempty
    | some d => exact ht.2 d hfile

theorem sound_empty : Sound ⟨[], []⟩ :=
  ⟨List.nodup_nil, Nat.zero_le _, List.nodup_nil, Nat.zero_le _⟩

/-- **Every state of the store is sound.** -/
theorem sound_reaches (h : Reaches (step order) Free emptyStore s) : s.All Sound :=
  all_reaches sound_empty (fun _ entry enabled hd => hd.favorited order entry enabled)
    (fun _ _ _ _ _ _ hd => hd.touched _) h

/-- Names compared as they are. -/
def byName : NameOrder where
  lower name := name
  sort l := l.insertionSort fun a b => a.name ≤ b.name
  perm l := List.perm_insertionSort _ l
  sorted l :=
    haveI : Std.Total fun a b : FilePreferenceEntry => a.name ≤ b.name :=
      ⟨fun a b => le_total a.name b.name⟩
    haveI : IsTrans FilePreferenceEntry fun a b => a.name ≤ b.name := ⟨fun _ _ _ => le_trans⟩
    List.pairwise_insertionSort _ l

/-- What the handlers pass: a path, and no times. -/
def plain (path : String) : FilePreferenceEntry := ⟨path, "", false, 0, 0, 0⟩

end LukePanel.Server.FilePreferences
