import LukePanel.Files.BackupFiles
import LukePanel.Files.VersionStore

/-! # The versions a file system stores

The version directory of a file system, seen as the files in it: a backup, the pruning of the
directory and the choice of a version do on the file system what they do on those files, with the
answers its calls give. -/
namespace LukePanel.Files.StoredVersions
open LukePanel.Library.Attempt LukePanel.Library.FileSystem LukePanel.Library.Syscalls
open LukePanel.Library.GoStrings LukePanel.Library.SlashPath LukePanel.Files.Paths
open LukePanel.Files.Copying LukePanel.Files.Versions LukePanel.Files.BackupFiles
open LukePanel.Files.VersionStore (named_versionsDir named_versionName)

variable {w : World} {n : Naming} {m : Manager} {path : Path} {l k : Loc} {h h' : Host}
  {versions : List Stored} {file : Edited} {v : Stored}

/-- The entries of the version directory `l` are these files, and the file at `k` is the one that is
edited. -/
structure Shows (m : Manager) (path : Path) (l k : Loc) (versions : List Stored) (file : Edited)
    (h : Host) : Prop where
  leads : h.fs.follow (versionsDir m) = .ok l
  isDir : h.fs.IsDirAt l
  names : h.fs.names l = versions.map (·.name)
  stored : ∀ v ∈ versions, ∃ attr, h.fs.entry (l ++ [v.name]) = some (.file attr v.content) ∧
    attr.mtime = v.time
  resolved : h.fs.follow path = .ok k
  edited : ∃ attr, h.fs.entry k = some (.file attr file.content) ∧ attr.mode = file.mode ∧
    attr.uid = file.uid ∧ attr.gid = file.gid
  outside : ∀ name, k ≠ l ++ [name]

theorem Shows.still (hs : Shows m path l k versions file h) (hstill : h.Still h') :
    Shows m path l k versions file h' := by
  obtain ⟨hfs, -⟩ := hstill
  obtain ⟨fs, ticks, touched⟩ := h'
  obtain rfl : fs = h.fs := hfs
  exact ⟨hs.leads, hs.isDir, hs.names, hs.stored, hs.resolved, hs.edited, hs.outside⟩

theorem Shows.there_iff (hs : Shows m path l k versions file h) {name : String} :
    name ∈ versions.map (·.name) ↔ ∃ e, h.fs.entry (l ++ [name]) = some e := by
  rw [← hs.names, Fs.mem_names]

theorem Shows.distinct (hs : Shows m path l k versions file h) :
    (versions.map (·.name)).Nodup := hs.names ▸ Fs.nodup_names

theorem Shows.sorted (hs : Shows m path l k versions file h) :
    (versions.map (·.name)).Pairwise (· < ·) := hs.names ▸ Fs.sorted_names

theorem Shows.located (hs : Shows m path l k versions file h) (name : String) :
    h.fs.locate (versionsDir m ++ [name]) = .ok (l ++ [name]) :=
  Fs.locate_concat hs.leads hs.isDir

/-! ## A version is removed -/

theorem place_ne {name other : String} (hne : other ≠ name) : l ++ [other] ≠ l ++ [name] :=
  fun heq => hne (List.singleton_inj.mp (List.append_cancel_left heq))

theorem Shows.without (hs : Shows m path l k versions file h) (hv : v ∈ versions)
    (hl : l ++ [v.name] ≠ []) {p : Stored → Bool}
    (hp : ∀ v' ∈ versions, p v' = true ↔ v'.name ≠ v.name) :
    Shows m path l k (versions.filter p) file (removed w h (l ++ [v.name]) hl []) := by
  obtain ⟨attr, hgone, -⟩ := hs.stored v hv
  have hwithin := within_removed (w := w) (h := h) (l ++ [v.name]) hl []
  have hself : l ≠ l ++ [v.name] := by simp
  have hkept : ∀ v', v' ∈ versions.filter p ↔ v' ∈ versions ∧ v'.name ≠ v.name := fun v' =>
    List.mem_filter.trans (and_congr_right fun hv' => hp v' hv')
  have hsame : ∀ {place e}, h.fs.entry place = some e → place ≠ l ++ [v.name] → e.isDir = false →
      (removed w h (l ++ [v.name]) hl []).fs.entry place = some e := fun he hne hfile =>
    hwithin.eq_of_not_dir (not_below_file hgone he hne) he hfile
  constructor
  case leads => exact (leadsTo_removed hl hgone hself).follow hs.leads
  case isDir =>
    obtain ⟨attr', hdir⟩ := hs.isDir
    exact hwithin.dir (not_below_file hgone hdir hself) hs.isDir
  case names =>
    refine Fs.names_eq (hs.sorted.sublist (List.filter_sublist.map _)) fun name => ?_
    by_cases hname : name = v.name
    · rw [hname, removed_here hl]
      refine iff_of_false (fun hmem => ?_) (by rintro ⟨_, ⟨⟩⟩)
      obtain ⟨v', hv', heq⟩ := List.mem_map.mp hmem
      exact ((hkept v').mp hv').2 heq
    · have hbeside : ¬ l ++ [v.name] <+: l ++ [name] := fun hbelow =>
        place_ne hname (hbelow.eq_of_length (by simp)).symm
      rw [hwithin.exists_iff hbeside, ← hs.there_iff, List.mem_map, List.mem_map]
      refine exists_congr fun v' => ⟨fun h' => ⟨((hkept v').mp h'.1).1, h'.2⟩, fun h' => ?_⟩
      exact ⟨(hkept v').mpr ⟨h'.1, h'.2 ▸ hname⟩, h'.2⟩
  case stored =>
    intro v' hv'
    obtain ⟨hmem, hname⟩ := (hkept v').mp hv'
    obtain ⟨attr', hfile, htime⟩ := hs.stored v' hmem
    exact ⟨attr', hsame hfile (place_ne hname) rfl, htime⟩
  case resolved => exact (leadsTo_removed hl hgone (hs.outside v.name)).follow hs.resolved
  case edited =>
    obtain ⟨attr', hfile, hrest⟩ := hs.edited
    exact ⟨attr', hsame hfile (hs.outside v.name) rfl, hrest⟩
  case outside => exact hs.outside

/-! ## Pruning -/

open Prog

/-- What the calls of a pruning answer. -/
def pruneAnswers (w : World) (dir : Path) : PruneAnswers where
  readDir := w.fails (.readDir dir)
  info name := (w.fails (.lstat (dir ++ [name]))).isSome
  remove p := (w.fails (.remove p)).isSome

theorem pruneAnswers_remove {dir p : Path} :
    (pruneAnswers w dir).remove p = (w.fails (.remove p)).isSome := rfl

/-- A version and a file that is not it have different candidates. -/
theorem candidate_ne_iff {dir : Path} {v' : Stored} (hs : Shows m path l k versions file h)
    (hv' : v' ∈ versions) (hv : v ∈ versions) :
    candidate dir v' ≠ candidate dir v ↔ v'.name ≠ v.name := by
  refine not_congr ⟨fun heq => ?_, fun heq => ?_⟩
  · exact (List.cons.inj (List.append_cancel_left (congrArg Candidate.path heq))).1
  · rw [List.inj_on_of_nodup_map hs.distinct hv' hv heq]

theorem ends_lstat_version {Q : Entry → Host → Prop} {E : Err → Host → Prop}
    (hs : Shows m path l k versions file h) (hv : v ∈ versions)
    (hE : ∀ errno, w.fails (.lstat (versionsDir m ++ [v.name])) = some errno → E (.sys errno) h)
    (hQ : ∀ attr h', w.fails (.lstat (versionsDir m ++ [v.name])) = none → h.Still h' →
      attr.mtime = v.time → Q (.file attr v.content) h') :
    Ends (lstat w (versionsDir m ++ [v.name])) h Q E := by
  obtain ⟨attr, hentry, htime⟩ := hs.stored v hv
  have hfound : (h.fs.locate (versionsDir m ++ [v.name]) >>= entryAt h.fs) =
      .ok (.file attr v.content) := by
    rw [hs.located]
    exact entryAt_of_entry hentry
  refine ends_query (fun errno herr => hE errno ?_) fun e hfails he => ?_
  · rcases herr with herr | herr
    · exact herr
    · cases hfound.symm.trans herr
  · obtain rfl := Except.ok.inj (hfound.symm.trans he)
    exact hQ attr _ hfails ⟨rfl, rfl⟩ htime

theorem candidates_shown (hs : Shows m path l k versions file h) {part : List Stored}
    (hsub : part ⊆ versions) :
    Ends (Versions.candidates w (versionsDir m) (part.map (·.name))) h
      (fun files h' => h.Still h' ∧
        files = BackupFiles.candidates (pruneAnswers w (versionsDir m)) (versionsDir m) part)
      fun _ _ => False := by
  induction part generalizing h with
  | nil => exact ends_pure.mpr ⟨.refl h, rfl⟩
  | cons v rest ih =>
    obtain ⟨hv, hrest⟩ := List.cons_subset.mp hsub
    rw [List.map_cons, Versions.candidates, ends_bind, ends_result]
    refine ends_lstat_version hs hv (fun errno hfails => ?_) fun attr h₁ hfails hstill htime => ?_
    · refine (ih hs hrest).mono (fun files h' hfiles => ⟨hfiles.1, hfiles.2.trans ?_⟩)
        fun _ _ hfalse => hfalse.elim
      simp [BackupFiles.candidates, pruneAnswers, hfails]
    · dsimp only
      rw [ends_bind]
      refine (ih (hs.still hstill) hrest).mono (fun files h' hfiles => ends_pure.mpr ?_)
        fun _ _ hfalse => hfalse.elim
      refine ⟨hstill.trans hfiles.1, ?_⟩
      rw [hfiles.2]
      simp [BackupFiles.candidates, pruneAnswers, hfails, candidate, sizeIn, attrOf, htime, Entry.isDir]

/-- What is removed from the directory is removed from the files in it; nobody else removes any. -/
theorem removeOldest_shown (hown : ∀ p, w.fails (.remove p) ≠ some .ENOENT)
    (maxBytes maxFiles : ℕ) {files : List Candidate} (hnodup : files.Nodup) (total : ℕ)
    (hs : Shows m path l k versions file h)
    (hfiles : ∀ item ∈ files, ∃ v ∈ versions, item = candidate (versionsDir m) v) :
    Ends (Versions.removeOldest w maxBytes maxFiles files total) h
      (fun _ h' => Shows m path l k (versions.filter fun v => candidate (versionsDir m) v ∉
        BackupFiles.removeOldest (pruneAnswers w (versionsDir m)).remove maxBytes maxFiles files total)
        file h')
      fun _ _ => False := by
  induction files generalizing versions total h with
  | nil =>
    refine ends_pure.mpr ?_
    simpa [BackupFiles.removeOldest] using hs
  | cons item rest ih =>
    obtain ⟨hnot, hrest⟩ := List.nodup_cons.mp hnodup
    obtain ⟨v, hv, rfl⟩ := hfiles item List.mem_cons_self
    rw [Versions.removeOldest, BackupFiles.removeOldest, ends_ite]
    refine ⟨fun hover => ?_, fun hroom => ends_pure.mpr ?_⟩
    swap
    · rw [if_neg hroom]
      simpa using hs
    rw [if_pos hover, ends_bind, ends_result]
    obtain ⟨attr, hentry, -⟩ := hs.stored v hv
    refine ends_remove_file (hs.located v.name) hentry rfl (by simp) (fun errno hfails => ?_)
      fun hfails => ?_
    · have hother : Err.isNotExist (.sys errno) = false :=
        decide_eq_false fun heq => hown _ (heq ▸ hfails)
      dsimp only
      rw [pruneAnswers_remove, hfails, if_pos Option.isSome_some, hother, if_neg Bool.false_ne_true]
      exact ih hrest total hs fun item hitem => hfiles item (List.mem_cons_of_mem _ hitem)
    · have hname : ∀ v' ∈ versions,
          decide (candidate (versionsDir m) v' ≠ candidate (versionsDir m) v) = true ↔
            v'.name ≠ v.name := fun v' hv' =>
        decide_eq_true_iff.trans (candidate_ne_iff hs hv' hv)
      rw [pruneAnswers_remove, hfails, Option.isSome_none, if_neg Bool.false_ne_true]
      refine (ih hrest _ (hs.without hv _ hname) fun item hitem => ?_).mono (fun _ h' hs' => ?_)
        fun _ _ hfalse => hfalse.elim
      · obtain ⟨v', hv', rfl⟩ := hfiles item (List.mem_cons_of_mem _ hitem)
        refine ⟨v', List.mem_filter.mpr ⟨hv', decide_eq_true fun heq => ?_⟩, rfl⟩
        exact hnot (heq ▸ hitem)
      · rw [List.filter_filter] at hs'
        convert hs' using 3
        simp [Bool.and_comm]

theorem ends_readDir_versions {Q : List String → Host → Prop} {E : Err → Host → Prop}
    (hs : Shows m path l k versions file h)
    (hE : ∀ errno, w.fails (.readDir (versionsDir m)) = some errno → E (.sys errno) h)
    (hQ : ∀ h', w.fails (.readDir (versionsDir m)) = none → h.Still h' →
      Q (versions.map (·.name)) h') : Ends (readDir w (versionsDir m)) h Q E := by
  obtain ⟨attr, hdir⟩ := hs.isDir
  cases hfails : w.fails (.readDir (versionsDir m)) with
  | some errno =>
    unfold Ends readDir query effect
    rw [hfails]
    exact hE errno hfails
  | none =>
    refine ends_readDir_ok hfails hs.leads hdir ?_
    rw [hs.names]
    exact hQ _ hfails ⟨rfl, rfl⟩

/-- **Pruning the directory prunes the files in it.** -/
theorem pruneDirectory_shown (hown : ∀ p, w.fails (.remove p) ≠ some .ENOENT)
    (maxBytes maxFiles : ℕ) {d : Disk} (hs : Shows m path l k d.versions d.file h) :
    Ends (Versions.pruneDirectory w n (versionsDir m) maxBytes maxFiles) h
      (fun _ => Shows m path l k (BackupFiles.pruneDirectory n (pruneAnswers w (versionsDir m))
        (versionsDir m) maxBytes maxFiles d).versions d.file)
      fun _ => Shows m path l k (BackupFiles.pruneDirectory n (pruneAnswers w (versionsDir m))
        (versionsDir m) maxBytes maxFiles d).versions d.file := by
  rw [Versions.pruneDirectory, ends_bind, BackupFiles.pruneDirectory]
  refine ends_readDir_versions hs (fun errno hfails => ?_) fun h₁ hfails hstill => ?_
  · rw [show (pruneAnswers w (versionsDir m)).readDir = _ from hfails]
    exact hs
  · have hs₁ := hs.still hstill
    rw [show (pruneAnswers w (versionsDir m)).readDir = _ from hfails, ends_bind]
    refine (candidates_shown hs₁ (List.Subset.refl _)).mono (fun files h₂ hfiles => ?_)
      fun _ _ hfalse => hfalse.elim
    obtain ⟨hstill, rfl⟩ := hfiles
    have hperm := n.byAge_perm
      (BackupFiles.candidates (pruneAnswers w (versionsDir m)) (versionsDir m) d.versions)
    refine (removeOldest_shown hown maxBytes maxFiles
      (hperm.nodup_iff.mpr (nodup_candidates _ _ d)) _ (hs₁.still hstill) fun item hitem => ?_).mono
      (fun _ _ hs' => hs') fun _ _ hfalse => hfalse.elim
    obtain ⟨v, hv, rfl⟩ := List.mem_map.mp (hperm.mem_iff.mp hitem)
    exact ⟨v, List.mem_of_mem_filter hv, rfl⟩

/-! ## Listing -/

theorem listed_shown (hcalm : ∀ name, w.fails (.lstat (versionsDir m ++ [name])) = none)
    (hs : Shows m path l k versions file h) {part : List Stored} (hpart : part ⊆ versions)
    (resolved : Path) :
    Ends (listed w n m resolved (part.map (·.name))) h
      (fun out h' => h.Still h' ∧ out = (part.filter (listedFor n resolved)).map (listing resolved))
      fun _ _ => False := by
  induction part generalizing h with
  | nil => exact ends_pure.mpr ⟨.refl h, rfl⟩
  | cons v rest ih =>
    obtain ⟨hv, hrest⟩ := List.cons_subset.mp hpart
    rw [List.map_cons, listed, ends_ite]
    refine ⟨fun hother => ?_, fun hnamed => ?_⟩
    · have hskip : listedFor n resolved v = false := by
        rw [listedFor, Bool.and_eq_false_iff]
        exact hother
      rw [List.filter_cons_of_neg (by rw [hskip]; exact Bool.false_ne_true)]
      exact ih hs hrest
    · have hkeep : listedFor n resolved v = true := by
        rw [not_or, Bool.not_eq_false, Bool.not_eq_false] at hnamed
        exact Bool.and_eq_true_iff.mpr hnamed
      rw [List.filter_cons_of_pos hkeep, ends_bind, ends_result]
      refine ends_lstat_version hs hv (fun errno hfails => ?_) fun attr h₁ _ hstill htime => ?_
      · cases (hcalm v.name).symm.trans hfails
      · dsimp only
        rw [ends_bind]
        refine (ih (hs.still hstill) hrest).mono (fun out h' hout => ends_pure.mpr ?_)
          fun _ _ hfalse => hfalse.elim
        refine ⟨hstill.trans hout.1, ?_⟩
        rw [hout.2, List.map_cons, listing, ← htime]
        rfl

/-- The versions listed for a path are those among the files. -/
theorem listBackupsForResolved_shown (hread : w.fails (.readDir (versionsDir m)) = none)
    (hcalm : ∀ name, w.fails (.lstat (versionsDir m ++ [name])) = none) {d : Disk}
    (hs : Shows m path l k d.versions d.file h) (resolved : Path) :
    Ends (Versions.listBackupsForResolved w n m resolved) h
      (fun out h' => h.Still h' ∧ out = BackupFiles.listBackupsForResolved n resolved d)
      fun _ _ => False := by
  rw [Versions.listBackupsForResolved, ends_bind, ends_result]
  refine ends_readDir_versions hs (fun errno hfails => ?_) fun h₁ _ hstill => ?_
  · cases hread.symm.trans hfails
  · dsimp only
    rw [ends_bind]
    refine (listed_shown hcalm (hs.still hstill) (List.Subset.refl _) resolved).mono
      (fun out h' hout => ends_pure.mpr ⟨hstill.trans hout.1, ?_⟩) fun _ _ hfalse => hfalse.elim
    rw [hout.2]
    rfl

theorem named_of_bak {id : String} (h : hasSuffix id ".bak" = true) : Named id := by
  refine ⟨?_, ?_, ?_⟩ <;> rintro rfl <;> exact absurd h (by decide)

theorem run_step {α : Type} (x : Unit → Run α) (d : Disk) : (step none >>= x) d = x () d := rfl

theorem Shows.not_there (hs : Shows m path l k versions file h) {id : String}
    (hfind : versions.find? (·.name = id) = none) : h.fs.entry (l ++ [id]) = none := by
  refine Option.eq_none_iff_forall_not_mem.mpr fun e he => ?_
  obtain ⟨v, hv, rfl⟩ := List.mem_map.mp (hs.there_iff.mpr ⟨e, he⟩)
  exact List.find?_eq_none.mp hfind v hv (decide_eq_true rfl)

theorem Shows.found (hs : Shows m path l k versions file h) (hv : v ∈ versions)
    (hnamed : Named v.name) : ∃ attr,
      (h.fs.follow (versionsDir m ++ [v.name]) >>= entryAt h.fs) = .ok (.file attr v.content) := by
  obtain ⟨attr, hentry, -⟩ := hs.stored v hv
  refine ⟨attr, ?_⟩
  rw [Fs.follow_concat hnamed hs.leads hs.isDir hentry rfl]
  exact entryAt_of_entry hentry

/-- A version is found among the files if it is found in the directory. -/
theorem resolveBackup_shown {d : Disk} (hs : Shows m path l k d.versions d.file h) (resolved : Path)
    (id : String) :
    Ends (Versions.resolveBackup w n m resolved id) h
      (fun found h' => h.Still h' ∧ ∃ v attr,
        found = (versionsDir m ++ [id], .file attr v.content) ∧
        BackupFiles.resolveBackup n (w.fails (.stat (versionsDir m ++ [id]))) resolved id d =
          (.ok v, d))
      fun _ h' => h.Still h' ∧
        ∃ err, BackupFiles.resolveBackup n (w.fails (.stat (versionsDir m ++ [id]))) resolved id d =
          (.error err, d) := by
  rw [Versions.resolveBackup, BackupFiles.resolveBackup, ends_bind, ends_check]
  refine ⟨fun hbad => ⟨.refl h, _, run_check_error hbad _ _ _⟩, fun hgood => ?_⟩
  rw [run_check hgood, ends_bind, ends_check]
  refine ⟨fun hother => ⟨.refl h, _, run_check_error hother _ _ _⟩, fun hmark => ?_⟩
  rw [run_check hmark, ends_bind]
  have hnamed : Named id := by
    simp only [not_or, Bool.not_eq_false] at hgood
    exact named_of_bak hgood.2.2.2
  cases hfind : d.versions.find? (·.name = id) with
  | none =>
    refine ends_query (fun errno _ => ⟨.refl h, ?_⟩) fun e _ he => ?_
    · cases w.fails (.stat (versionsDir m ++ [id])) with
      | some errno => exact ⟨_, rfl⟩
      | none => exact ⟨.sys .ENOENT, by rw [run_step, Prog.read, hfind]⟩
    · rw [Fs.follow_concat_none hnamed hs.leads hs.isDir (hs.not_there hfind)] at he
      cases he
  | some v =>
    obtain rfl : v.name = id := by simpa using List.find?_some hfind
    obtain ⟨attr, hfound⟩ := hs.found (List.mem_of_find?_eq_some hfind) hnamed
    refine ends_query (fun errno herr => ⟨.refl h, ?_⟩) fun e hfails he => ?_
    · rcases herr with hfails | herr
      · rw [hfails]
        exact ⟨_, rfl⟩
      · cases hfound.symm.trans herr
    · obtain rfl := Except.ok.inj (hfound.symm.trans he)
      refine ends_pure.mpr ⟨⟨rfl, rfl⟩, v, attr, rfl, ?_⟩
      rw [hfails, run_step, Prog.read, hfind]

/-! ## A version is added -/

/-- The others are named after earlier times. -/
theorem Shows.made (hs : Shows m path l k versions file h) {place : h.fs.Vacant}
    (hdir : place.dir = l) (attr : Attr) (hlast : ∀ v ∈ versions, v.name ≤ place.name) :
    Shows m path l k (versions ++ [⟨place.name, [], attr.mtime⟩]) file
      (h.made w place (.file attr [])) := by
  subst hdir
  have hwithin := within_made (w := w) place (.file attr [])
  have hlead : Fs.Leads h.fs (h.made w place (.file attr [])).fs := leads_made
  have hnew : (h.made w place (.file attr [])).fs.entry (place.dir ++ [place.name]) =
      some (.file attr []) := entry_made_of_not_dir rfl
  have hne : ∀ v ∈ versions, v.name ≠ place.name := by
    intro v hv heq
    obtain ⟨e, he⟩ := hs.there_iff.mp (List.mem_map.mpr ⟨v, hv, heq⟩)
    cases place.free.symm.trans he
  constructor
  case leads => exact Fs.follow_mono hlead hs.leads
  case isDir => exact hlead.isDirAt hs.isDir
  case names =>
    refine Fs.names_eq ?_ fun name => ?_
    · rw [List.map_append, List.pairwise_append]
      refine ⟨hs.sorted, List.pairwise_singleton _ _, fun name hname other hother => ?_⟩
      obtain ⟨v, hv, rfl⟩ := List.mem_map.mp hname
      rw [List.mem_singleton.mp hother]
      exact lt_of_le_of_ne (hlast v hv) (hne v hv)
    · rw [List.map_append, List.mem_append, hs.there_iff, List.map_singleton, List.mem_singleton]
      by_cases hname : name = place.name
      · rw [hname]
        exact iff_of_true (.inr rfl) ⟨_, hnew⟩
      · rw [or_iff_left hname, hwithin.exists_iff (place_ne hname)]
  case stored =>
    intro v hv
    rcases List.mem_append.mp hv with hv | hv
    · obtain ⟨attr', hfile, htime⟩ := hs.stored v hv
      exact ⟨attr', hwithin.eq_of_not_dir (place_ne (hne v hv)) hfile rfl, htime⟩
    · rw [List.mem_singleton.mp hv]
      exact ⟨attr, hnew, rfl⟩
  case resolved => exact Fs.follow_mono hlead hs.resolved
  case edited =>
    obtain ⟨attr', hfile, hrest⟩ := hs.edited
    exact ⟨attr', hwithin.eq_of_not_dir (hs.outside place.name) hfile rfl, hrest⟩
  case outside => exact hs.outside

theorem Shows.appended {new : String} {content : Bytes} {time : ℕ}
    (hs : Shows m path l k (versions ++ [⟨new, content, time⟩]) file h) (hnamed : Named new)
    (bytes : Bytes) :
    Shows m path l k (versions ++ [⟨new, content ++ bytes, w.clock h.ticks⟩]) file
      (appendTo w (versionsDir m ++ [new]) bytes h) := by
  obtain ⟨attr, hfile, -⟩ := hs.stored _ (List.mem_append_right _ List.mem_cons_self)
  have hfollow := Fs.follow_concat hnamed hs.leads hs.isDir hfile rfl
  have hentry := entry_appendTo (w := w) bytes hfollow hfile
  have hlead := leads_appendTo (w := w) bytes hfollow hfile
  have hwithin := within_appendTo (w := w) bytes hfollow
  have hnew : new ∉ versions.map (·.name) := by
    have hdistinct := hs.distinct
    rw [List.map_append, List.nodup_append] at hdistinct
    exact fun hmem => hdistinct.2.2 new hmem new List.mem_cons_self rfl
  have hne : ∀ v ∈ versions, v.name ≠ new := fun v hv heq => hnew (heq ▸ List.mem_map_of_mem hv)
  constructor
  case leads => exact Fs.follow_mono hlead hs.leads
  case isDir => exact hlead.isDirAt hs.isDir
  case names =>
    have hsorted := hs.sorted
    rw [List.map_append] at hsorted ⊢
    refine Fs.names_eq hsorted fun name => ?_
    have hthere : name ∈ (versions ++ [Stored.mk new content time]).map (·.name) ↔ _ := hs.there_iff
    rw [List.map_append] at hthere
    refine hthere.trans ?_
    by_cases hname : name = new
    · rw [hname, hfile, hentry, if_pos rfl]
      exact iff_of_true ⟨_, rfl⟩ ⟨_, rfl⟩
    · rw [hwithin.exists_iff (place_ne hname)]
  case stored =>
    intro v hv
    rcases List.mem_append.mp hv with hv | hv
    · obtain ⟨attr', hold, htime⟩ := hs.stored v (List.mem_append_left _ hv)
      exact ⟨attr', hwithin.eq_of_not_dir (place_ne (hne v hv)) hold rfl, htime⟩
    · rw [List.mem_singleton.mp hv, hentry, if_pos rfl]
      exact ⟨_, rfl, rfl⟩
  case resolved => exact Fs.follow_mono hlead hs.resolved
  case edited =>
    obtain ⟨attr', hold, hrest⟩ := hs.edited
    exact ⟨attr', hwithin.eq_of_not_dir (hs.outside new) hold rfl, hrest⟩
  case outside => exact hs.outside

/-! ## Backups -/

variable {d : Disk} {now : ℕ}

/-- The answers of a backup that has made its file. -/
def answers (now time : ℕ) (copy : Option (ℕ × Errno)) (removeCopy close : Option Errno)
    (prune : PruneAnswers) : BackupAnswers where
  openSource := none
  mkdirAll := none
  now := now
  time := time
  create := none
  copy := copy
  removeCopy := removeCopy
  close := close
  prune := prune

theorem backup_large (a : BackupAnswers) (hlarge : maxVersionSize < d.file.content.length) :
    BackupFiles.backup n m a path d = (.ok (), d) := by
  unfold BackupFiles.backup
  change (if _ then _ else _ : Run Unit) d = _
  rw [if_pos hlarge]
  rfl

theorem backup_stopped (hsmall : ¬ maxVersionSize < d.file.content.length) (a : BackupAnswers)
    {errno : Errno} (hopen : a.openSource = some errno) :
    BackupFiles.backup n m a path d = (.error (.sys errno), d) := by
  unfold BackupFiles.backup
  change (if _ then _ else _ : Run Unit) d = _
  rw [if_neg hsmall, hopen]
  rfl

/-- The file of a new version can be made. -/
structure Opens (n : Naming) (path : Path) (d : Disk) (now : ℕ) : Prop where
  small : ¬ maxVersionSize < d.file.content.length
  short : ¬ 255 < (versionName n now path).utf8ByteSize
  fresh : versionName n now path ∉ d.versions.map (·.name)

theorem backup_torn (ho : Opens n path d now) (time : ℕ) (prune : PruneAnswers) (count : ℕ)
    (errno : Errno) (removeCopy : Option Errno) :
    BackupFiles.backup n m (answers now time (some (count, errno)) removeCopy none prune) path d =
      (.error (.sys errno), if removeCopy.isSome then
        d.withVersion ⟨versionName n now path, d.file.content.take count, time⟩ else d) := by
  unfold BackupFiles.backup
  change (if _ then _ else _ : Run Unit) d = _
  rw [if_neg ho.small, answers, run_step, run_step, run_step, run_check ho.short,
    run_check ho.fresh]
  rfl

theorem backup_copied (ho : Opens n path d now) (time : ℕ) (prune : PruneAnswers)
    (close : Option Errno) :
    BackupFiles.backup n m (answers now time none none close prune) path d =
      (do
        step close
        Prog.modify (BackupFiles.pruneDirectory n prune (versionsDir m) maxStoredBytes
          maxStoredFiles) : Run Unit)
        (d.withVersion ⟨versionName n now path, d.file.content, time⟩) := by
  unfold BackupFiles.backup
  change (if _ then _ else _ : Run Unit) d = _
  rw [if_neg ho.small, answers, run_step, run_step, run_step, run_check ho.short,
    run_check ho.fresh]
  rfl

/-- With some answers the backup of the files ends so, with the files that the file system shows. -/
def Backs (n : Naming) (m : Manager) (path : Path) (l k : Loc) (d : Disk) (r : Except Err Unit)
    (h : Host) : Prop :=
  ∃ a d', BackupFiles.backup n m a path d = (r, d') ∧ Shows m path l k d'.versions d'.file h

/-- Without the new version the files are what they were. -/
theorem filter_added {new : String} (hnew : new ∉ versions.map (·.name)) (content : Bytes)
    (time : ℕ) :
    (versions ++ [Stored.mk new content time]).filter (fun v => v.name ≠ new) = versions := by
  have hold : versions.filter (fun v => v.name ≠ new) = versions := List.filter_eq_self.mpr
    fun v hv => decide_eq_true fun heq => hnew (heq ▸ List.mem_map_of_mem hv)
  rw [List.filter_append, hold]
  simp

theorem versions_added (ho : Opens n path d now) (content : Bytes) (time : ℕ) :
    (d.withVersion ⟨versionName n now path, content, time⟩).versions =
      d.versions ++ [⟨versionName n now path, content, time⟩] := versions_withVersion ho.fresh

/-- A copy that broke off is removed, or stays as a version. -/
theorem torn_shown (ho : Opens n path d now) (count time : ℕ) (errno : Errno)
    (hs : Shows m path l k
      (d.versions ++ [⟨versionName n now path, d.file.content.take count, time⟩]) d.file h) :
    Ends (remove w (versionsDir m ++ [versionName n now path])) h
      (fun _ => Backs n m path l k d (.error (.sys errno)))
      fun _ => Backs n m path l k d (.error (.sys errno)) := by
  have hnew : Stored.mk (versionName n now path) (d.file.content.take count) time ∈
      d.versions ++ [⟨versionName n now path, d.file.content.take count, time⟩] :=
    List.mem_append_right _ List.mem_cons_self
  obtain ⟨attr, hpart, -⟩ := hs.stored _ hnew
  refine ends_remove_file (hs.located _) hpart rfl (by simp) (fun errno' _ => ?_) fun _ => ?_
  · refine ⟨_, _, backup_torn ho time (pruneAnswers w (versionsDir m)) count errno (some errno'), ?_⟩
    rw [if_pos Option.isSome_some, versions_added ho, withVersion_same.1]
    exact hs
  · refine ⟨_, _, backup_torn ho time (pruneAnswers w (versionsDir m)) count errno none, ?_⟩
    rw [Option.isSome_none, if_neg Bool.false_ne_true]
    have hgone := hs.without (w := w) hnew (by simp) (p := fun v => v.name ≠ versionName n now path)
      fun _ _ => decide_eq_true_iff
    rwa [filter_added ho.fresh] at hgone

/-- A whole copy is a version, and the directory is pruned. -/
theorem stored_shown (hown : ∀ p, w.fails (.remove p) ≠ some .ENOENT) (ho : Opens n path d now)
    (time : ℕ)
    (hs : Shows m path l k (d.versions ++ [⟨versionName n now path, d.file.content, time⟩]) d.file
      h) :
    Ends (do
        close w (versionsDir m ++ [versionName n now path])
        Prog.dropped (Versions.pruneDirectory w n (versionsDir m) maxStoredBytes maxStoredFiles)) h
      (fun _ => Backs n m path l k d (.ok ())) fun err => Backs n m path l k d (.error err) := by
  have hcopied := backup_copied (m := m) ho time (pruneAnswers w (versionsDir m))
  rw [← versions_added ho] at hs
  replace hs : Shows m path l k (d.withVersion ⟨versionName n now path, d.file.content, time⟩).versions
      (d.withVersion ⟨versionName n now path, d.file.content, time⟩).file h := by
    rwa [withVersion_same.1]
  generalize d.withVersion _ = d₁ at hcopied hs
  rw [ends_bind]
  refine ends_query (fun errno _ => ⟨_, d₁, hcopied (some errno), hs⟩) fun _ _ _ => ?_
  have hpruned : ∀ h', Shows m path l k (pruned n m (pruneAnswers w (versionsDir m)) d₁).versions
      d₁.file h' → Backs n m path l k d (.ok ()) h' := by
    intro h' hs'
    rw [← (pruned_same (d := d₁)).1] at hs'
    exact ⟨_, _, hcopied none, hs'⟩
  rw [ends_dropped]
  refine (pruneDirectory_shown hown _ _ ?_).mono (fun _ => hpruned) fun _ => hpruned
  exact hs.still ⟨rfl, rfl⟩

/-- The copying and what comes after it. -/
theorem copy_shown (hown : ∀ p, w.fails (.remove p) ≠ some .ENOENT) (ho : Opens n path d now)
    (time : ℕ)
    (hs : Shows m path l k (d.versions ++ [⟨versionName n now path, [], time⟩]) d.file h) :
    Ends (do
        let _ ← Prog.onFail (remove w (versionsDir m ++ [versionName n now path]))
          (copyTo w (versionsDir m ++ [versionName n now path]) k none)
        close w (versionsDir m ++ [versionName n now path])
        Prog.dropped (Versions.pruneDirectory w n (versionsDir m) maxStoredBytes maxStoredFiles)) h
      (fun _ => Backs n m path l k d (.ok ())) fun err => Backs n m path l k d (.error err) := by
  obtain ⟨attr, hfile, -⟩ := hs.edited
  have hcontent : contentAt w h.fs k = .ok d.file.content := by rw [contentAt, hfile]
  have hwritten := fun bytes => hs.appended (w := w) (named_versionName now path) bytes
  rw [ends_bind, ends_onFail]
  refine ends_copyTo (fun errno herr => ?_) (fun content errno hok _ => ?_) fun content hok _ _ => ?_
  · cases hcontent.symm.trans herr
  · obtain rfl := Except.ok.inj (hcontent.symm.trans hok)
    exact torn_shown ho _ _ errno (hwritten _)
  · obtain rfl := Except.ok.inj (hcontent.symm.trans hok)
    exact stored_shown hown ho _ (hwritten d.file.content)

/-- **A backup stores in the directory what it stores among the files**, with some answers of the
calls: it ends alike, and the files are those of the directory. No version is named after a later
time than the clock shows, and nobody else removes any. -/
theorem backup_shown (hown : ∀ p, w.fails (.remove p) ≠ some .ENOENT)
    (hlast : ∀ ticks, ∀ v ∈ d.versions, v.name ≤ versionName n (w.clock ticks) path)
    (hs : Shows m path l k d.versions d.file h) (attr : Attr) :
    Ends (Versions.backup w n m path (.file attr d.file.content)) h
      (fun _ => Backs n m path l k d (.ok ())) fun err => Backs n m path l k d (.error err) := by
  rw [Versions.backup, ends_ite]
  refine ⟨fun hlarge => ends_pure.mpr ?_, fun hsmall => ?_⟩
  · exact ⟨answers 0 0 none none none (pruneAnswers w (versionsDir m)), d,
      backup_large _ hlarge, hs⟩
  -- a call before the copying fails
  have hstop : ∀ errno h', h.Still h' → Backs n m path l k d (.error (.sys errno)) h' := by
    intro errno h' hstill
    exact ⟨{ answers 0 0 none none none (pruneAnswers w (versionsDir m)) with
      openSource := some errno }, d, backup_stopped hsmall _ rfl, hs.still hstill⟩
  rw [ends_bind]
  refine ends_query (fun errno _ => hstop errno h (.refl h)) fun src _ hsrc => ?_
  obtain rfl : k = src := Except.ok.inj (hs.resolved.symm.trans hsrc)
  have hopened : h.Still ⟨h.fs, h.ticks + 1, h.touched⟩ := ⟨rfl, rfl⟩
  rw [ends_bind]
  refine ((ends_mkdirAll named_versionsDir _).and (fails_mkdirAll _ _)).mono ?_ ?_
  swap
  · rintro err h₁ ⟨hprepared, errno, rfl⟩
    exact hstop errno h₁ (hopened.trans (hprepared.still_of_leads named_versionsDir hs.leads))
  rintro - h₁ ⟨⟨l', hmade⟩, -⟩
  have hstill := hopened.trans (hmade.prepared.still_of_leads named_versionsDir hs.leads)
  have hread : h.Still ⟨h₁.fs, h₁.ticks + 1, h₁.touched⟩ := hstill
  have hs₂ := hs.still hread
  rw [ends_bind]
  change Ends _ (Host.mk h₁.fs (h₁.ticks + 1) h₁.touched) _ _
  generalize Host.mk h₁.fs (h₁.ticks + 1) h₁.touched = h₂ at hread hs₂
  dsimp only
  rw [ends_bind]
  refine ends_make (fun errno _ => hstop errno h₂ hread) fun place _ hplace => ?_
  obtain ⟨hfollow, hname, -⟩ := Fs.vacant_concat_ok hplace
  have hdir : place.dir = l := Except.ok.inj (hfollow.symm.trans hs₂.leads)
  have ho : Opens n path d (w.clock h₁.ticks) := by
    refine ⟨hsmall, ?_, fun hthere => ?_⟩
    · rw [← hname]
      exact Nat.not_lt.mpr place.valid.2.2
    · obtain ⟨e, he⟩ := hs₂.there_iff.mp hthere
      rw [← hname, ← hdir, place.free] at he
      cases he
  refine copy_shown hown ho (w.clock h₂.ticks) ?_
  rw [← hname]
  exact hs₂.made hdir ⟨_, _, _, _⟩ (hname ▸ hlast h₁.ticks)

end LukePanel.Files.StoredVersions
