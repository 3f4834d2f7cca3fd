import LukePanel.Agent.ComposeSave
import Mathlib.Data.List.Sort

/-! # What a save of a Compose configuration leaves in the files

Membership is checked under the cleaned path and the content is looked up under it, but the keys of
the map are the paths as they were submitted. A failed save is undone for the paths the snapshot
recorded, by operations that fail in turn. -/
namespace LukePanel.Agent.ComposeContents
open LukePanel.Agent.ComposeSave

/-- The content was submitted for the path, under some spelling of it. -/
def Submitted (request : ComposeSaveRequest) (path : String) (content : Bytes) : Prop :=
  ∃ raw, (raw, content) ∈ request.files ∧ cleaned raw = path

/-- Each file of the project was submitted and has exactly that content, and no other file
changed. -/
structure Saved (project : ComposeProject) (request : ComposeSaveRequest) (before after : Files) :
    Prop where
  submitted : ∀ path ∈ project.configFiles, ∃ content, Submitted request path content
  contents : ∀ path ∈ project.configFiles, ∀ content, Submitted request path content →
    after path = some content
  others : ∀ path, path ∉ project.configFiles → after path = before path

def Unchanged (project : ComposeProject) (before after : Files) : Prop :=
  ∀ path ∈ project.configFiles, after path = before path

structure Right (project : ComposeProject) (request : ComposeSaveRequest) (before : Files)
    (result : Answer × State) : Prop where
  saved : result.1.isSaved = true → Saved project request before result.2.files
  failed : result.1.isSaved = false → Unchanged project before result.2.files

/-- The files are written, or some of them. -/
structure Writes (project : ComposeProject) (request : ComposeSaveRequest) (c : CreateAnswers)
    (a : WriteAnswers) : Prop where
  created : Created c (snapshotName project) project.configFiles
  found : a.project = none
  accepted : Accepted project request

/-- Each file was submitted, and each content submitted for it is the one under its cleaned path, or
is empty with nothing under its cleaned path. -/
def Plain (project : ComposeProject) (request : ComposeSaveRequest) : Prop :=
  ∀ path ∈ project.configFiles, (∃ content, Submitted request path content) ∧
    ∀ content, Submitted request path content → content = request.content path

/-- A file holds another content when the save has failed. -/
structure Changed (project : ComposeProject) (request : ComposeSaveRequest) (c : CreateAnswers)
    (a : WriteAnswers) (s : State) (path : String) : Prop where
  writes : Writes project request c a
  written : path ∈ reached a.file s.files 0 project.configFiles
  changed : s.files path ≠ some (request.content path)

/-- A changed file is not put back, or a file is left otherwise by a roll back. -/
inductive Lost (newest : NewestFirst) (project : ComposeProject) (request : ComposeSaveRequest)
    (c : CreateAnswers) (a : WriteAnswers) (r : RestoreAnswers) (s : State) (path : String) : Prop
  /-- The snapshot recorded the paths without the white space around them. -/
  | missing (hchanged : Changed project request c a s path)
      (hmissing : path ∉ project.configFiles.map original)
  | stopped (hchanged : Changed project request c a s path)
      (hstopped : ¬ Begins newest c r (snapshotName project) project.configFiles s)
  | undone (hchanged : Changed project request c a s path)
      (hput : ¬ Put r.put s.files 0 project.configFiles)
      (hdamage : damage r.back 0 project.configFiles path = none)
  | damaged (left : Option Bytes)
      (hbegins : Begins newest c r (snapshotName project) project.configFiles s)
      (hput : ¬ Put r.put s.files 0 project.configFiles) (hexists : s.files path ≠ none)
      (hdamage : damage r.back 0 project.configFiles path = some left)
      (hleft : left ≠ s.files path)

variable {newest : NewestFirst} {project : ComposeProject} {request : ComposeSaveRequest}
  {c : CreateAnswers} {a : WriteAnswers} {r : RestoreAnswers} {s : State}

/-! ## Saves that go through -/

theorem saved_iff {before : Files} :
    Saved project request before
      (overwritten (fun path => some (request.content (cleaned path))) project.configFiles before) ↔
      Plain project request := by
  have hwritten : ∀ path ∈ project.configFiles,
      overwritten (fun path => some (request.content (cleaned path))) project.configFiles before path =
        some (request.content path) := by
    intro path hpath
    rw [overwritten, if_pos hpath, project.clean path hpath]
  constructor
  · intro h path hpath
    refine ⟨h.submitted path hpath, fun content hcontent => ?_⟩
    have hafter := h.contents path hpath content hcontent
    rw [hwritten path hpath] at hafter
    exact (Option.some.inj hafter).symm
  · intro h
    refine ⟨fun path hpath => (h path hpath).1, fun path hpath content hcontent => ?_,
      fun path hpath => if_neg hpath⟩
    rw [hwritten path hpath, (h path hpath).2 content hcontent]

theorem lookup_of_mem {files : List (String × Bytes)} (hdistinct : (files.map (·.1)).Nodup)
    {path : String} {content : Bytes} (h : (path, content) ∈ files) :
    files.lookup path = some content := by
  induction files with
  | nil => cases h
  | cons file rest ih =>
    rw [List.map_cons, List.nodup_cons] at hdistinct
    rw [List.lookup_cons]
    rcases List.mem_cons.mp h with rfl | hrest
    · rw [beq_self_eq_true]
    · have hne : path ≠ file.1 := fun heq => hdistinct.1 (heq ▸ List.mem_map_of_mem hrest)
      rw [beq_eq_false_iff_ne.mpr hne]
      exact ih hdistinct.2 hrest

/-- Submitted under cleaned paths only, an accepted request has each file once. -/
theorem plain_of_cleaned (haccepted : Accepted project request)
    (h : ∀ file ∈ request.files, cleaned file.1 = file.1) : Plain project request := by
  have hsubset : request.files.map (·.1) ⊆ project.configFiles := by
    intro path hpath
    obtain ⟨file, hfile, rfl⟩ := List.mem_map.mp hpath
    rw [← h file hfile]
    exact (haccepted.files file hfile).1
  have hperm : (request.files.map (·.1)).Perm project.configFiles := by
    refine (List.subperm_of_subset request.distinct hsubset).perm_of_length_le ?_
    rw [List.length_map, haccepted.count]
  intro path hpath
  obtain ⟨file, hfile, rfl⟩ := List.mem_map.mp (hperm.mem_iff.mpr hpath)
  refine ⟨⟨file.2, file.1, hfile, h file hfile⟩, ?_⟩
  rintro content ⟨raw, hraw, hcleaned⟩
  obtain rfl : raw = file.1 := (h _ hraw).symm.trans hcleaned
  rw [ComposeSaveRequest.content, lookup_of_mem request.distinct hraw, Option.getD_some]

/-! ## Saves that fail -/

/-- What the failed save left is what was there but for the changed files. -/
structure Left (project : ComposeProject) (request : ComposeSaveRequest) (c : CreateAnswers)
    (a : WriteAnswers) (s : State) (files : Files) : Prop where
  same : ∀ path, files path = none ↔ s.files path = none
  unchanged : ∀ path ∈ project.configFiles,
    files path = s.files path ↔ ¬ Changed project request c a s path

theorem reached_exists {files : Files} {fails : ℕ → Option String} {index : ℕ} {paths : List String}
    {path : String} (h : path ∈ reached fails files index paths) : files path ≠ none := by
  induction paths generalizing index with
  | nil => cases h
  | cons first rest ih =>
    rw [reached] at h
    split at h
    · rename_i hfirst
      rcases List.mem_cons.mp h with rfl | hrest
      · exact hfirst.2
      · exact ih hrest
    · cases h

theorem left_written (h : Writes project request c a) : Left project request c a s
    (overwritten (fun path => some (request.content (cleaned path)))
      (reached a.file s.files 0 project.configFiles) s.files) where
  same path := by
    unfold overwritten
    split
    · rename_i hreached
      exact iff_of_false (Option.some_ne_none _) (reached_exists hreached)
    · exact Iff.rfl
  unchanged path hpath := by
    unfold overwritten
    split
    · rename_i hreached
      dsimp only
      rw [project.clean path hpath]
      constructor
      · intro hsame hchanged
        exact hchanged.changed hsame.symm
      · intro hnot
        by_contra hdiff
        exact hnot ⟨h, hreached, Ne.symm hdiff⟩
    · rename_i hreached
      exact iff_of_true rfl fun hchanged => hreached hchanged.written

theorem left_rejected (h : ¬ Writes project request c a) : Left project request c a s s.files where
  same _ := Iff.rfl
  unchanged _ _ := iff_of_true rfl fun hchanged => h hchanged.writes

/-! One lemma for each way in which a restore ends. -/

theorem lost_stopped_iff {path : String}
    (h : ¬ Begins newest c r (snapshotName project) project.configFiles s) :
    Lost newest project request c a r s path ↔ Changed project request c a s path := by
  refine ⟨fun hlost => ?_, fun hchanged => .stopped hchanged h⟩
  cases hlost with
  | missing hchanged | stopped hchanged | undone hchanged => exact hchanged
  | damaged _ hbegins => exact absurd hbegins h

theorem lost_done_iff {path : String}
    (hbegins : Begins newest c r (snapshotName project) project.configFiles s)
    (hput : Put r.put s.files 0 project.configFiles) :
    Lost newest project request c a r s path ↔
      Changed project request c a s path ∧ path ∉ project.configFiles.map original := by
  refine ⟨fun hlost => ?_, fun hlost => .missing hlost.1 hlost.2⟩
  cases hlost with
  | missing hchanged hmissing => exact ⟨hchanged, hmissing⟩
  | stopped _ hstopped => exact absurd hbegins hstopped
  | undone _ hfails => exact absurd hput hfails
  | damaged _ _ hfails => exact absurd hput hfails

theorem lost_undone_iff {path : String}
    (hbegins : Begins newest c r (snapshotName project) project.configFiles s)
    (hput : ¬ Put r.put s.files 0 project.configFiles) :
    Lost newest project request c a r s path ↔
      match damage r.back 0 project.configFiles path with
      | none => Changed project request c a s path
      | some left => s.files path ≠ none ∧ left ≠ s.files path := by
  cases hdamage : damage r.back 0 project.configFiles path with
  | none =>
    refine ⟨fun hlost => ?_, fun hchanged => .undone hchanged hput hdamage⟩
    cases hlost with
    | missing hchanged | stopped hchanged | undone hchanged => exact hchanged
    | damaged left _ _ _ hsome =>
      rw [hdamage] at hsome
      cases hsome
  | some left =>
    refine ⟨fun hlost => ?_, fun h => .damaged left hbegins hput h.1 hdamage h.2⟩
    cases hlost with
    | missing _ hmissing =>
      rw [damage_eq_none hmissing] at hdamage
      cases hdamage
    | stopped _ hstopped => exact absurd hbegins hstopped
    | undone _ _ hnone =>
      rw [hdamage] at hnone
      cases hnone
    | damaged left' _ _ hexists hsome hleft =>
      rw [hdamage] at hsome
      obtain rfl := Option.some.inj hsome
      exact ⟨hexists, hleft⟩

theorem unchanged_iff {files : Files} (h : Left project request c a s files) :
    Unchanged project s.files
      (restore r c.id ⟨files, stored newest c (snapshotName project) project.configFiles s⟩).2.files ↔
    ∀ path ∈ project.configFiles, ¬ Lost newest project request c a r s path := by
  refine forall₂_congr fun path hpath => ?_
  by_cases hbegins : Begins newest c r (snapshotName project) project.configFiles s
  · by_cases hput : Put r.put s.files 0 project.configFiles
    · rw [restore_done hbegins hput, lost_done_iff hbegins hput, overwritten]
      split
      · rename_i hrecorded
        exact iff_of_true rfl fun hlost => hlost.2 hrecorded
      · rename_i hmissing
        rw [h.unchanged path hpath, and_iff_left hmissing]
    · rw [restore_undone hbegins hput h.same, lost_undone_iff hbegins hput]
      by_cases hnone : s.files path = none
      · -- A file that was not there was not written.
        have hnot : ¬ Changed project request c a s path := fun hchanged =>
          reached_exists hchanged.written hnone
        rw [if_pos hnone, h.unchanged path hpath]
        split
        · exact Iff.rfl
        · exact iff_of_true hnot fun hlost => hlost.1 hnone
      · rw [if_neg hnone]
        cases damage r.back 0 project.configFiles path with
        | none => exact h.unchanged path hpath
        | some left =>
          rw [Option.getD_some, ← not_iff_not, not_not]
          exact (and_iff_right hnone).symm
  · rw [restore_stopped hbegins, h.unchanged path hpath, lost_stopped_iff hbegins]

/-- With paths without white space around them, a snapshot that stays and a restore in which nothing
fails, nothing is lost. -/
theorem not_lost (htrimmed : ∀ path ∈ project.configFiles, original path = path)
    (hbegins : Begins newest c r (snapshotName project) project.configFiles s)
    (hput : Put r.put s.files 0 project.configFiles) (path : String) :
    ¬ Lost newest project request c a r s path := by
  intro hlost
  cases hlost with
  | missing hchanged hmissing =>
    have hpath := reached_subset hchanged.written
    exact hmissing (List.mem_map.mpr ⟨path, hpath, htrimmed path hpath⟩)
  | stopped _ hstopped => exact hstopped hbegins
  | undone _ hfails => exact hfails hput
  | damaged _ _ hfails => exact hfails hput

/-- A snapshot that is newer than all others stays. -/
theorem not_pruned {name : String} {paths : List String}
    (h : ∀ snapshot ∈ s.snapshots, snapshot.createdAt < c.now) : ¬ Pruned newest c name paths s := by
  refine not_not.mpr ?_
  have hmem : taken c name paths s.files ∈
      s.snapshots.filter (·.id ≠ c.id) ++ [taken c name paths s.files] := by simp
  unfold stored prune
  split
  · exact hmem
  · refine List.mem_append_left _ ?_
    have hperm := newest.perm (s.snapshots.filter (·.id ≠ c.id) ++ [taken c name paths s.files])
    have hsorted := newest.sorted (s.snapshots.filter (·.id ≠ c.id) ++ [taken c name paths s.files])
    rw [← hperm.mem_iff] at hmem
    cases hsort : newest.sort (s.snapshots.filter (·.id ≠ c.id) ++ [taken c name paths s.files]) with
    | nil =>
      rw [hsort] at hmem
      cases hmem
    | cons first rest =>
      rw [hsort] at hmem hsorted hperm
      have hfirst := hperm.mem_iff.mp List.mem_cons_self
      rcases List.mem_append.mp hfirst with hother | htaken
      · have hlt := h first (List.mem_of_mem_filter hother)
        rcases List.mem_cons.mp hmem with heq | hrest
        · rw [← heq] at hlt
          exact absurd hlt (Nat.lt_irrefl _)
        · exact absurd hlt (Nat.not_lt.mpr (List.rel_of_pairwise_cons hsorted hrest))
      · rw [List.mem_singleton.mp htaken]
        exact List.mem_cons_self

/-! ## The endpoint -/

theorem right_refused (h : ¬ Created c (snapshotName project) project.configFiles) :
    Right project request s.files (dockerComposeConfig newest (.ok project) request c a r s) := by
  obtain ⟨err, snapshots, hcreate⟩ := create_error h
  unfold dockerComposeConfig
  dsimp only
  rw [hcreate]
  exact ⟨nofun, fun _ _ _ => rfl⟩

theorem right_rejected_iff (hcreated : Created c (snapshotName project) project.configFiles)
    (h : ¬ Writes project request c a) :
    Right project request s.files (dockerComposeConfig newest (.ok project) request c a r s) ↔
      ∀ path ∈ project.configFiles, ¬ Lost newest project request c a r s path := by
  have haccepted : ¬ (a.project = none ∧ Accepted project request) := fun haccepted =>
    h ⟨hcreated, haccepted.1, haccepted.2⟩
  obtain ⟨err, hwrite⟩ := writeComposeConfig_rejected haccepted
  unfold dockerComposeConfig
  dsimp only
  rw [create_ok hcreated]
  dsimp only
  rw [hwrite, ← unchanged_iff (left_rejected h)]
  exact ⟨fun hright => hright.failed rfl, fun hsame => ⟨nofun, fun _ => hsame⟩⟩

theorem right_written_iff (h : Writes project request c a) :
    Right project request s.files (dockerComposeConfig newest (.ok project) request c a r s) ↔
      (Finished project request a s.files → Plain project request) ∧
      (¬ Finished project request a s.files →
        ∀ path ∈ project.configFiles, ¬ Lost newest project request c a r s path) := by
  obtain ⟨hfiles, herror⟩ :=
    @writeComposeConfig_accepted project request a s.files h.found h.accepted
  unfold dockerComposeConfig
  dsimp only
  rw [create_ok h.created]
  dsimp only
  generalize writeComposeConfig project request a s.files = result at hfiles herror ⊢
  obtain ⟨⟨output, err⟩, files⟩ := result
  dsimp only at hfiles herror
  subst hfiles
  cases err with
  | none =>
    have hfinished := herror.mp rfl
    rw [iff_true_intro hfinished, true_imp_iff, not_true, false_imp_iff, and_true, ← saved_iff,
      hfinished.files]
    exact ⟨fun hright => hright.saved rfl, fun hsaved => ⟨fun _ => hsaved, nofun⟩⟩
  | some err =>
    have hnot : ¬ Finished project request a s.files := fun hfinished => by
      cases herror.mpr hfinished
    rw [iff_false_intro hnot, false_imp_iff, true_and, not_false_eq_true, true_imp_iff,
      ← unchanged_iff (left_written h)]
    exact ⟨fun hright => hright.failed rfl, fun hsame => ⟨nofun, fun _ => hsame⟩⟩

/-- A save is right just in case each file is submitted plainly if all steps succeed, and no file
is lost if one fails after the snapshot was taken. -/
theorem compose_save_iff : Right project request s.files
    (dockerComposeConfig newest (.ok project) request c a r s) ↔
      (Writes project request c a → Finished project request a s.files → Plain project request) ∧
      (Created c (snapshotName project) project.configFiles →
        ¬ (Writes project request c a ∧ Finished project request a s.files) →
        ∀ path ∈ project.configFiles, ¬ Lost newest project request c a r s path) := by
  by_cases hcreated : Created c (snapshotName project) project.configFiles
  · rw [iff_true_intro hcreated, true_imp_iff]
    by_cases hwrites : Writes project request c a
    · rw [right_written_iff hwrites, iff_true_intro hwrites, true_imp_iff, true_and]
    · rw [right_rejected_iff hcreated hwrites, iff_false_intro hwrites, false_imp_iff, true_and,
        false_and, not_false_eq_true, true_imp_iff]
  · have hnot : ¬ Writes project request c a := fun h => hcreated h.created
    exact iff_of_true (right_refused hcreated) ⟨fun h => absurd h hnot, fun h => absurd h hcreated⟩

/-- By insertion. -/
def newestFirst : NewestFirst where
  sort l := l.insertionSort fun a b => b.createdAt ≤ a.createdAt
  perm l := List.perm_insertionSort _ l
  sorted l :=
    haveI : Std.Total fun a b : Snapshot => b.createdAt ≤ a.createdAt :=
      ⟨fun a b => Nat.le_total b.createdAt a.createdAt⟩
    haveI : IsTrans Snapshot fun a b => b.createdAt ≤ a.createdAt :=
      ⟨fun _ _ _ hab hbc => Nat.le_trans hbc hab⟩
    List.pairwise_insertionSort _ l

/-- One file, submitted with a dot in its path. -/
def spelled : ComposeSaveRequest := ⟨[("/srv/app/./compose.yml", [123, 125])], by decide, false⟩

def appProject : ComposeProject := .ofLabel "app" "/srv/app/compose.yml"

/-- All that is asked of the system succeeds, and the file is there. -/
def savedApp : Answer × State :=
  dockerComposeConfig newestFirst (.ok appProject) spelled
    ⟨"20260101T000000.000000000-compose", 1, none, fun _ => none, none, none, fun _ => false⟩
    ⟨none, fun _ => none, ("", none), ("", none)⟩
    ⟨none, none, fun _ => none, fun _ => ⟨none, none⟩, fun _ => ⟨none, none⟩⟩
    ⟨fun path => if path = "/srv/app/compose.yml" then some [35] else none, []⟩

/-- The file is saved empty. -/
theorem spelled_path_saved_empty : savedApp.1.isSaved = true ∧
    savedApp.2.files "/srv/app/compose.yml" = some [] ∧
    ¬ Right appProject spelled
      (fun path => if path = "/srv/app/compose.yml" then some [35] else none) savedApp := by
  have hsaved : savedApp.1.isSaved = true := by decide +kernel
  have hempty : savedApp.2.files "/srv/app/compose.yml" = some [] := by decide +kernel
  refine ⟨hsaved, hempty, fun hright => ?_⟩
  have hcontent := (hright.saved hsaved).contents "/srv/app/compose.yml" (by decide +kernel) [123, 125]
    ⟨"/srv/app/./compose.yml", by decide, by decide +kernel⟩
  rw [hempty] at hcontent
  cases hcontent

end LukePanel.Agent.ComposeContents
