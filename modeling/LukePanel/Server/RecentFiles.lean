import LukePanel.Server.FilePreferences

/-! # What a touch keeps

`Touch` puts an entry first in the list of recent files, and hands on the times of the entry it
replaces, unless that one stands last in a full list. -/
namespace LukePanel.Server.RecentFiles
open LukePanel.Library.Machine LukePanel.Server.FilePreferences

/-- A recorded time after an access: that of the access if it is of this kind, and not earlier. -/
def updated (ofKind : Bool) (now old : ℕ) : ℕ := if ofKind then max old now else old

/-- The time that is recorded for a path. -/
def recorded (time : FilePreferenceEntry → ℕ) (path : String) (recent : List FilePreferenceEntry) :
    ℕ :=
  ((recent.find? (·.path = path)).map time).getD 0

/-- The most recent access comes first. -/
def Ordered (recent : List FilePreferenceEntry) : Prop :=
  recent.Pairwise fun a b => b.lastAccess ≤ a.lastAccess

/-- The entry is put first with the times recorded for its path, and of the others at most the last
one goes. -/
structure Kept (entry : FilePreferenceEntry) (kind : String) (now : ℕ)
    (before after : List FilePreferenceEntry) : Prop where
  length : after.length ≤ 50
  paths : (after.map (·.path)).Nodup
  ordered : Ordered after
  entries : ∃ first others dropped, after = first :: others ∧
    first.path = (named entry).path ∧ first.lastAccess = now ∧
    first.lastModify = updated (kind = "modify") now
      (recorded (·.lastModify) (named entry).path before) ∧
    first.lastDownload = updated (kind = "download") now
      (recorded (·.lastDownload) (named entry).path before) ∧
    before.filter (·.path ≠ (named entry).path) = others ++ dropped ∧ dropped.length ≤ 1

/-- The clock is not behind the access of another entry. -/
def OnTime (entry : FilePreferenceEntry) (now : ℕ) (recent : List FilePreferenceEntry) : Prop :=
  ∀ item ∈ recent, item.path ≠ (named entry).path → item.lastAccess ≤ now

/-- A recorded time need not be handed on: there is none, or the access replaces it. -/
def Replaced (ofKind : Bool) (now old : ℕ) : Prop := old = 0 ∨ (ofKind = true ∧ old ≤ now)

/-- The fiftieth entry is of another path, or has no times to hand on. -/
def Spared (entry : FilePreferenceEntry) (kind : String) (now : ℕ)
    (recent : List FilePreferenceEntry) : Prop :=
  ∀ item, recent[49]? = some item → item.path = (named entry).path →
    Replaced (kind = "modify") now item.lastModify ∧
      Replaced (kind = "download") now item.lastDownload

/-- No touch finds the clock behind. -/
def Punctual (s : Store) : Call × Bool → Prop
  | (.touch entry _ now, _) => OnTime entry now s.data.recent
  | _ => True

variable {order : NameOrder} {entry : FilePreferenceEntry} {kind : String} {now old : ℕ} {saved : Bool}
  {s : Store} {recent : List FilePreferenceEntry}

theorem ordered_touched (hpaths : (recent.map (·.path)).Nodup) (hordered : Ordered recent) :
    Ordered (touched (stamped entry kind now) recent) ↔ OnTime entry now recent := by
  have hothers : Ordered (recent.filter (·.path ≠ (named entry).path)) :=
    hordered.sublist List.filter_sublist
  have hcons : Ordered (touched (stamped entry kind now) recent) ↔
      ∀ item ∈ (recent.filter (·.path ≠ (named entry).path)).take 49, item.lastAccess ≤ now := by
    unfold Ordered touched
    rw [List.pairwise_cons, (path_touchLoop hpaths _).2]
    exact ⟨fun h => h.1, fun h => ⟨h, hothers.sublist (List.take_sublist _ _)⟩⟩
  rw [hcons]
  constructor
  · intro h item hitem hpath
    have hmem : item ∈ recent.filter (·.path ≠ (named entry).path) :=
      List.mem_filter.mpr ⟨hitem, decide_eq_true hpath⟩
    cases hfilter : recent.filter (·.path ≠ (named entry).path) with
    | nil =>
      rw [hfilter] at hmem
      cases hmem
    | cons newest rest =>
      rw [hfilter] at h hmem hothers
      have hnewest := h newest List.mem_cons_self
      rcases List.mem_cons.mp hmem with rfl | hrest
      · exact hnewest
      · exact Nat.le_trans ((List.pairwise_cons.mp hothers).1 item hrest) hnewest
  · intro h item hitem
    obtain ⟨hmem, hpath⟩ := List.mem_filter.mp (List.mem_of_mem_take hitem)
    exact h item hmem (of_decide_eq_true hpath)

/-! ## The times of the entry -/

theorem updated_stamp (ofKind : Bool) (now old : ℕ) :
    (if (if ofKind then now else 0) < old then old else if ofKind then now else 0) =
      updated ofKind now old := by
  unfold updated
  cases ofKind with
  | true =>
    simp only [if_true]
    split <;> omega
  | false =>
    simp only [Bool.false_eq_true, if_false]
    split <;> omega

theorem stamp_eq_updated {ofKind : Bool} :
    (if ofKind then now else 0) = updated ofKind now old ↔ Replaced ofKind now old := by
  unfold updated Replaced
  cases ofKind with
  | true =>
    simp only [if_true, true_and]
    omega
  | false =>
    simp only [Bool.false_eq_true, if_false, false_and, or_false]
    exact eq_comm

/-- What comes in the first 49 entries, or is the fiftieth. -/
theorem find_last (h : recent.length ≤ 50) (path : String) :
    recent.find? (·.path = path) = ((recent.take 49).find? (·.path = path)).or
      (recent[49]?.filter (·.path = path)) := by
  have hdrop : recent.drop 49 = recent[49]?.toList := by
    rw [List.drop_eq_getElem?_toList_append, List.drop_eq_nil_of_le h, List.append_nil]
  have hparts : recent.find? (·.path = path) =
      (recent.take 49 ++ recent.drop 49).find? (·.path = path) := by
    rw [List.take_append_drop]
  rw [hparts, List.find?_append, hdrop]
  cases recent[49]? with
  | none => rfl
  | some item =>
    have hone : (some item).toList.find? (·.path = path) =
        (some item).filter fun item : FilePreferenceEntry => item.path = path := by
      by_cases hitem : item.path = path
      · simp [Option.filter, hitem]
      · simp [Option.filter, hitem]
    rw [hone]

/-- The path stands in the list once, so if it comes before the fiftieth entry, that one is of
another path. -/
theorem spared_of_seen {item : FilePreferenceEntry} (hpaths : (recent.map (·.path)).Nodup)
    (hseen : (recent.take 49).find? (·.path = (named entry).path) = some item) :
    Spared entry kind now recent := by
  intro last hlast hsame
  have hitem := List.find?_some hseen
  have hparts : ((recent.take 49 ++ recent.drop 49).map (·.path)).Nodup := by
    rwa [List.take_append_drop]
  rw [List.map_append, List.nodup_append] at hparts
  have hin : last ∈ recent.drop 49 := by
    rw [List.drop_eq_getElem?_toList_append, hlast]
    exact List.mem_cons_self
  exact absurd ((of_decide_eq_true hitem).trans hsame.symm) (hparts.2.2 _
    (List.mem_map_of_mem (List.mem_of_find?_eq_some hseen)) _ (List.mem_map_of_mem hin))

/-- The times of the touched path are all handed on if the fiftieth entry has none to hand on. -/
theorem times_touched (hpaths : (recent.map (·.path)).Nodup) (hlength : recent.length ≤ 50)
    (hplain : entry.lastModify = 0 ∧ entry.lastDownload = 0) :
    ((touchLoop (stamped entry kind now) recent (stamped entry kind now) []).1.lastModify =
        updated (kind = "modify") now (recorded (·.lastModify) (named entry).path recent) ∧
      (touchLoop (stamped entry kind now) recent (stamped entry kind now) []).1.lastDownload =
        updated (kind = "download") now (recorded (·.lastDownload) (named entry).path recent)) ↔
      Spared entry kind now recent := by
  have hmodify : (stamped entry kind now).lastModify =
      if decide (kind = "modify") then now else 0 := by simp [stamped, hplain.1]
  have hdownload : (stamped entry kind now).lastDownload =
      if decide (kind = "download") then now else 0 := by simp [stamped, hplain.2]
  have hpath : (stamped entry kind now).path = (named entry).path := rfl
  have hfind := find_last hlength (named entry).path
  have hfirst := @touchLoop_first (stamped entry kind now) recent hpaths (stamped entry kind now) []
    (by decide)
  rw [List.length_nil, Nat.sub_zero, hpath] at hfirst
  cases hseen : (recent.take 49).find? (·.path = (named entry).path) with
  | some item =>
    rw [hseen, Option.map_some, Option.getD_some] at hfirst
    rw [hseen, Option.some_or] at hfind
    refine ⟨fun _ => spared_of_seen hpaths hseen, fun _ => ?_⟩
    rw [hfirst, recorded, recorded, hfind]
    constructor
    · rw [handed, hmodify]
      exact updated_stamp _ now item.lastModify
    · rw [handed, hdownload]
      exact updated_stamp _ now item.lastDownload
  | none =>
    rw [hseen, Option.map_none, Option.getD_none] at hfirst
    rw [hseen, Option.none_or] at hfind
    rw [hfirst, recorded, recorded, hfind, hmodify, hdownload, stamp_eq_updated, stamp_eq_updated]
    unfold Spared
    cases hlast : recent[49]? with
    | none =>
      exact ⟨fun _ _ h => absurd h (Option.some_ne_none _).symm,
        fun _ => ⟨Or.inl rfl, Or.inl rfl⟩⟩
    | some last =>
      by_cases hsame : last.path = (named entry).path
      · have hfilter : (some last).filter (fun item : FilePreferenceEntry =>
            item.path = (named entry).path) = some last := by simp [hsame]
        rw [hfilter]
        constructor
        · intro h item hitem _
          obtain rfl := Option.some.inj hitem
          exact h
        · exact fun h => h last rfl hsame
      · have hfilter : (some last).filter (fun item : FilePreferenceEntry =>
            item.path = (named entry).path) = none := by simp [hsame]
        rw [hfilter]
        refine ⟨fun _ item hitem hpath' => ?_, fun _ => ⟨Or.inl rfl, Or.inl rfl⟩⟩
        obtain rfl := Option.some.inj hitem
        exact absurd hpath' hsame

/-! ## Runs -/

theorem ordered_reaches (h : Reaches (step order) Punctual emptyStore s) :
    s.All fun d => Sound d ∧ Ordered d.recent :=
  all_reaches ⟨sound_empty, List.Pairwise.nil⟩
    (fun _ entry enabled hd => ⟨hd.1.favorited order entry enabled, hd.2⟩)
    (fun _ _ _ _ _ honTime hd =>
      ⟨hd.1.touched _, (ordered_touched hd.1.recentPaths hd.2).mpr honTime⟩) h

/-- **What a touch keeps.** In a state in which no touch has found the clock behind, a touch puts the
entry first, with the times recorded for its path, and loses at most the last of the others, if and
only if the clock is not behind the others' accesses, and the entry of the path does not stand last
in a full list with a time to hand on. -/
theorem touch_iff (h : Reaches (step order) Punctual emptyStore s)
    (hplain : entry.lastModify = 0 ∧ entry.lastDownload = 0) :
    Kept entry kind now s.data.recent (touch entry kind now saved s).2.data.recent ↔
      OnTime entry now s.data.recent ∧ Spared entry kind now s.data.recent := by
  obtain ⟨⟨hsound, hordered⟩, -⟩ := ordered_reaches h
  have htouched : (touch entry kind now saved s).2.data.recent =
      touched (stamped entry kind now) s.data.recent := by
    rw [touch_eq, saveLocked_data]
  rw [htouched]
  have htimes := @times_touched entry kind now _ hsound.recentPaths hsound.recent hplain
  have hontime := @ordered_touched entry kind now _ hsound.recentPaths hordered
  constructor
  · intro hkept
    obtain ⟨first, others, dropped, hlist, -, -, hmodify, hdownload, -⟩ := hkept.entries
    obtain ⟨rfl, -⟩ := List.cons.inj hlist
    exact ⟨hontime.mp hkept.ordered, htimes.mp ⟨hmodify, hdownload⟩⟩
  · rintro ⟨honTime, hspared⟩
    obtain ⟨hmodify, hdownload⟩ := htimes.mpr hspared
    obtain ⟨hpath, haccess⟩ := path_touchLoop hsound.recentPaths (stamped entry kind now)
    have hsound' := hsound.touched (stamped entry kind now)
    refine ⟨hsound'.recent, hsound'.recentPaths, hontime.mpr honTime, ?_⟩
    refine ⟨_, _, (s.data.recent.filter (·.path ≠ (named entry).path)).drop 49, rfl, hpath, haccess,
      hmodify, hdownload, (List.take_append_drop _ _).symm, ?_⟩
    have hfilter := List.length_filter_le (·.path ≠ (named entry).path) s.data.recent
    have hmost := hsound.recent
    rw [List.length_drop]
    omega

/-! ## A full list -/

instance (entry : FilePreferenceEntry) (now : ℕ) (recent : List FilePreferenceEntry) :
    Decidable (OnTime entry now recent) := inferInstanceAs (Decidable (∀ item ∈ _, _))

def punctualCheck (s : Store) : Call × Bool → Bool
  | (.touch entry _ now, _) => decide (OnTime entry now s.data.recent)
  | _ => true

theorem punctual_of_check (s : Store) (call : Call × Bool) (h : punctualCheck s call = true) :
    Punctual s call := by
  obtain ⟨call, saved⟩ := call
  cases call with
  | touch entry kind now =>
    have hcheck : decide (OnTime entry now s.data.recent) = true := h
    have honTime : OnTime entry now s.data.recent := of_decide_eq_true hcheck
    exact honTime
  | favorite entry enabled => trivial
  | reload => trivial

theorem punctual_modified :
    Reaches (step byName) Punctual emptyStore (touch (plain "/etc/hosts") "modify" 1 true emptyStore).2 :=
  Reaches.refl.tail (a := (.touch (plain "/etc/hosts") "modify" 1, true))
    (fun _ hitem => absurd hitem List.not_mem_nil) rfl

/-- A file is saved and then downloaded: it keeps the time it was saved. -/
theorem download_kept : Kept (plain "/etc/hosts") "download" 2
    (touch (plain "/etc/hosts") "modify" 1 true emptyStore).2.data.recent
    (touch (plain "/etc/hosts") "download" 2 true
      (touch (plain "/etc/hosts") "modify" 1 true emptyStore).2).2.data.recent := by
  refine (touch_iff punctual_modified ⟨rfl, rfl⟩).mpr ⟨by decide +kernel, fun item hitem => ?_⟩
  have hnone : (touch (plain "/etc/hosts") "modify" 1 true emptyStore).2.data.recent[49]? = none := by
    decide +kernel
  rw [hnone] at hitem
  cases hitem

/-- A file is saved, and 49 others are looked at. -/
def fiftyFiles : List (Call × Bool) :=
  (List.range 50).map fun k =>
    (.touch (plain ("/" ++ toString k)) (if k = 0 then "modify" else "access") (k + 1), true)

/-- Then the first one is looked at: the time it was saved is lost. -/
theorem modified_time_lost : ∃ s, Reaches (step byName) Punctual emptyStore s ∧
    recorded (·.lastModify) "/0" s.data.recent = 1 ∧
      ¬ Kept (plain "/0") "access" 51 s.data.recent
        (touch (plain "/0") "access" 51 true s).2.data.recent := by
  have hrun : (runIf (step byName) punctualCheck emptyStore fiftyFiles).map (fun s =>
      (recorded (·.lastModify) "/0" s.data.recent,
        (touch (plain "/0") "access" 51 true s).2.data.recent.head?.map (·.lastModify))) =
      some (1, some 0) := by decide +kernel
  obtain ⟨s, hs, htimes⟩ := Option.map_eq_some_iff.mp hrun
  obtain ⟨hbefore, hafter⟩ := Prod.mk.inj htimes
  refine ⟨s, reaches_of_runIf punctual_of_check hs, hbefore, fun hkept => ?_⟩
  obtain ⟨first, others, dropped, hlist, -, -, hmodify, -⟩ := hkept.entries
  have hpath : (named (plain "/0")).path = "/0" := by decide +kernel
  rw [hpath, hbefore] at hmodify
  rw [hlist, List.head?_cons, Option.map_some, hmodify] at hafter
  cases hafter

end LukePanel.Server.RecentFiles
