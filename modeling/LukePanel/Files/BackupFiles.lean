import LukePanel.Files.Versions

/-! # The version directory as the files in it

`Write` and `RestoreBackup` with `backup`, `pruneDirectory` and `listBackupsForResolved`, as far as
the regular files of the version directory, one file outside of it and the temporary files next to
that file are concerned. What the calls on them answer is given beforehand; `StoredVersions` connects
them with those of `Versions`, which run on a whole file system. -/
namespace LukePanel.Files.BackupFiles
open LukePanel.Library.Attempt LukePanel.Library.FileSystem LukePanel.Library.Syscalls
open LukePanel.Library.GoStrings (contains hasSuffix)
open LukePanel.Files.Paths LukePanel.Files.Versions

/-- A file of the version directory. -/
structure Stored where
  name : String
  content : Bytes
  time : ℕ
deriving DecidableEq

/-- The file that is edited. -/
structure Edited where
  content : Bytes
  mode : Mode
  uid : ℕ
  gid : ℕ
deriving DecidableEq

/-- `temps` counts the temporary files next to the file. -/
structure Disk where
  versions : List Stored
  distinct : (versions.map (·.name)).Nodup
  file : Edited
  temps : ℕ

abbrev Run := Prog Disk Err

/-- A call that fails, or does nothing that is modelled. -/
def step (fails : Option Errno) : Run Unit := Prog.read fun _ =>
  match fails with
  | none => .ok ()
  | some errno => .error (.sys errno)

/-- The directory with a new file; no file of its name is there. -/
def Disk.withVersion (d : Disk) (v : Stored) : Disk :=
  if h : v.name ∉ d.versions.map (·.name) then
    { d with
      versions := d.versions ++ [v]
      distinct := by
        rw [List.map_append, List.nodup_append]
        exact ⟨d.distinct, List.nodup_singleton _, fun a ha b hb heq => h (by
          rw [List.map_singleton, List.mem_singleton] at hb
          rwa [← hb, ← heq])⟩ }
  else d

def Disk.keeping (d : Disk) (p : Stored → Bool) : Disk :=
  { d with
    versions := d.versions.filter p
    distinct := d.distinct.sublist (List.filter_sublist.map _) }

/-! ## Pruning -/

structure PruneAnswers where
  readDir : Option Errno
  /-- `entry.Info()` fails for the name. -/
  info : String → Bool
  /-- `os.Remove` fails for the path. -/
  remove : Path → Bool

def candidate (dir : Path) (v : Stored) : Candidate := ⟨dir ++ [v.name], v.content.length, v.time⟩

/-- What is removed, the oldest files first. -/
def removeOldest (fails : Path → Bool) (maxBytes maxFiles : ℕ) : List Candidate → ℕ → List Candidate
  | [], _ => []
  | item :: rest, total =>
    if maxFiles < rest.length + 1 ∨ maxBytes < total then
      if fails item.path then removeOldest fails maxBytes maxFiles rest total
      else item :: removeOldest fails maxBytes maxFiles rest (total - item.size)
    else []

variable (n : Naming) (m : Manager)

/-- The files that are looked at. -/
def candidates (a : PruneAnswers) (dir : Path) (versions : List Stored) : List Candidate :=
  (versions.filter fun v => !a.info v.name).map (candidate dir)

def pruneDirectory (a : PruneAnswers) (dir : Path) (maxBytes maxFiles : ℕ) (d : Disk) : Disk :=
  match a.readDir with
  | some _ => d
  | none =>
    let files := candidates a dir d.versions
    let removed := removeOldest a.remove maxBytes maxFiles (n.byAge files) (files.map Candidate.size).sum
    d.keeping fun v => candidate dir v ∉ removed

/-! ## Versions -/

structure BackupAnswers where
  openSource : Option Errno
  mkdirAll : Option Errno
  /-- The time in the name, and that of the file. -/
  now : ℕ
  time : ℕ
  create : Option Errno
  /-- How many bytes were copied before the copy failed. -/
  copy : Option (ℕ × Errno)
  removeCopy : Option Errno
  close : Option Errno
  prune : PruneAnswers

def backup (a : BackupAnswers) (path : Path) : Run Unit := do
  let d ← Prog.get
  if maxVersionSize < d.file.content.length then return ()
  else do
    let name := versionName n a.now path
    step a.openSource
    step a.mkdirAll
    step a.create
    Prog.check (255 < name.utf8ByteSize) (.sys .ENAMETOOLONG)
    Prog.check (name ∈ d.versions.map (·.name)) (.sys .EEXIST)
    match a.copy with
    | some (count, errno) => do
      Prog.modify fun d =>
        if a.removeCopy.isSome then d.withVersion ⟨name, d.file.content.take count, a.time⟩ else d
      Prog.fail (.sys errno)
    | none => do
      Prog.modify (·.withVersion ⟨name, d.file.content, a.time⟩)
      step a.close
      Prog.modify (pruneDirectory n a.prune (versionsDir m) maxStoredBytes maxStoredFiles)

/-- The version is listed for the path. -/
def listedFor (path : Path) (v : Stored) : Bool :=
  contains v.name (mark n path) && hasSuffix v.name ".bak"

def listing (path : Path) (v : Stored) : BackupVersion :=
  ⟨v.name, path, baseOf path, v.content.length, v.time⟩

/-- No call fails. -/
def listBackupsForResolved (path : Path) (d : Disk) : List BackupVersion :=
  (n.byNewest ((d.versions.filter (listedFor n path)).map (listing path))).take maxListed

def resolveBackup (stat : Option Errno) (path : Path) (id : String) : Run Stored := do
  Prog.check (id = "" ∨ base id ≠ id ∨ id.toList.any (· ∈ ['/', '\\']) = true ∨
    hasSuffix id ".bak" = false) (.msg "备份版本编号无效")
  Prog.check (contains id (mark n path) = false) (.msg "备份版本与当前文件不匹配")
  step stat
  Prog.read fun d =>
    match d.versions.find? (·.name = id) with
    | some v => .ok v
    | none => .error (.sys .ENOENT)

/-! ## Replacing the file -/

/-- The owner is that of the new file before it is changed. -/
structure ReplaceAnswers where
  createTemp : Option Errno
  owner : ℕ × ℕ
  chmod : Option Errno
  write : Option Errno
  sync : Option Errno
  close : Option Errno
  chown : Option Errno
  rename : Option Errno
  removeTemp : Option Errno

/-- The steps on the temporary file; `check` is made once it is written. -/
def fillTemp (a : ReplaceAnswers) (content : Bytes) (check : Run Unit) : Run Unit := do
  let d ← Prog.get
  step a.chmod
  step a.write
  check
  step a.sync
  step a.close
  Prog.check (a.chown.any (· ≠ .EPERM) = true) (.sys (a.chown.getD .EPERM))
  step a.rename
  let owner := if a.chown.isSome then a.owner else (d.file.uid, d.file.gid)
  Prog.modify fun d =>
    { d with
      file := ⟨content, ⟨d.file.mode.perm, false, false, false⟩, owner.1, owner.2⟩
      temps := d.temps - 1 }

/-- The temporary file is removed at the end, unless it was renamed. -/
def replace (a : ReplaceAnswers) (content : Bytes) (check : Run Unit) : Run Unit := do
  step a.createTemp
  Prog.modify fun d => { d with temps := d.temps + 1 }
  Prog.onFail (if a.removeTemp.isSome then pure () else
    Prog.modify fun d => { d with temps := d.temps - 1 }) (fillTemp a content check)

structure WriteAnswers where
  resolve : Option Err
  backup : BackupAnswers
  replace : ReplaceAnswers

def resolveExisting (fails : Option Err) : Run Unit := Prog.read fun _ =>
  match fails with
  | none => .ok ()
  | some err => .error err

def ensureWritablePath (path : Path) : Run Unit :=
  Prog.check (isVirtual path = true) (.msg "虚拟系统目录只允许浏览，不能执行普通文件写入")

def write (a : WriteAnswers) (path : Path) (content : Bytes) : Run Unit := do
  Prog.check (maxEditableSize < content.length) (.msg "文件内容超过 2MB")
  resolveExisting a.resolve
  ensureWritablePath path
  Prog.mapError (.wrap "创建备份失败: ") (backup n m a.backup path)
  replace a.replace content (pure ())

structure RestoreAnswers where
  resolve : Option Err
  stat : Option Errno
  backup : BackupAnswers
  openVersion : Option Errno
  replace : ReplaceAnswers

def restoreBackup (a : RestoreAnswers) (path : Path) (id : String) : Run Unit := do
  resolveExisting a.resolve
  ensureWritablePath path
  let v ← resolveBackup n a.stat path id
  Prog.check (maxVersionSize < v.content.length) (.msg "备份文件超过 20MB，无法在线恢复")
  Prog.mapError (.wrap "恢复前创建当前版本备份失败: ") (backup n m a.backup path)
  step a.openVersion
  let opened ← Prog.read fun d =>
    match d.versions.find? (·.name = id) with
    | some v => .ok v
    | none => .error (.sys .ENOENT)
  let content := opened.content.take (maxVersionSize + 1)
  replace a.replace content
    (Prog.check (maxVersionSize < content.length) (.msg "备份文件超过 20MB，无法在线恢复"))

/-! ## What is pruned -/

/-- The sizes of the files of the list that cannot be removed. -/
def stuckBytes (fails : Path → Bool) (files : List Candidate) : ℕ :=
  ((files.filter fun item => fails item.path).map Candidate.size).sum

theorem stuckBytes_cons (fails : Path → Bool) (file : Candidate) (files : List Candidate) :
    stuckBytes fails (file :: files) =
      (if fails file.path then file.size else 0) + stuckBytes fails files := by
  unfold stuckBytes
  cases hfails : fails file.path <;> simp [hfails]

theorem sum_filter_le {α : Type} (p : α → Bool) (f : α → ℕ) (l : List α) :
    ((l.filter p).map f).sum ≤ (l.map f).sum := by
  induction l with
  | nil => exact Nat.le_refl 0
  | cons a rest ih =>
    rw [List.map_cons, List.sum_cons]
    cases hp : p a with
    | true =>
      rw [List.filter_cons_of_pos hp, List.map_cons, List.sum_cons]
      omega
    | false =>
      rw [List.filter_cons_of_neg (by simp [hp])]
      omega

theorem stuckBytes_le (fails : Path → Bool) (files : List Candidate) :
    stuckBytes fails files ≤ (files.map Candidate.size).sum := sum_filter_le _ _ _

theorem removeOldest_subset {fails : Path → Bool} {maxBytes maxFiles total : ℕ}
    {files : List Candidate} : removeOldest fails maxBytes maxFiles files total ⊆ files := by
  induction files generalizing total with
  | nil => exact List.Subset.refl _
  | cons file rest ih =>
    rw [removeOldest]
    split
    · split
      · exact List.Subset.trans ih (List.subset_cons_self ..)
      · exact List.cons_subset_cons file ih
    · exact List.nil_subset _

/-- Counted are the file, the ones after it and the ones before it that cannot be removed. -/
theorem mem_removeOldest_iff {fails : Path → Bool} {maxBytes maxFiles stuck : ℕ}
    {older newer : List Candidate} {item : Candidate} (hnodup : (older ++ item :: newer).Nodup) :
    item ∈ removeOldest fails maxBytes maxFiles (older ++ item :: newer)
        (stuck + ((older ++ item :: newer).map Candidate.size).sum) ↔
      fails item.path = false ∧ (maxFiles < newer.length + 1 ∨
        maxBytes < stuck + stuckBytes fails older + ((item :: newer).map Candidate.size).sum) := by
  induction older generalizing stuck with
  | nil =>
    have hnot : item ∉ newer := (List.nodup_cons.mp hnodup).1
    rw [List.nil_append, removeOldest]
    by_cases hover : maxFiles < newer.length + 1 ∨
        maxBytes < stuck + ((item :: newer).map Candidate.size).sum
    · rw [if_pos hover]
      cases hfails : fails item.path with
      | true =>
        refine iff_of_false (fun hmem => hnot (removeOldest_subset hmem)) fun h => ?_
        cases h.1
      | false => exact iff_of_true (by simp) ⟨rfl, by simpa [stuckBytes] using hover⟩
    · rw [if_neg hover]
      exact iff_of_false List.not_mem_nil fun h => hover (by simpa [stuckBytes] using h.2)
  | cons file older ih =>
    have hne : item ≠ file := by
      rintro rfl
      exact (List.nodup_cons.mp hnodup).1 (List.mem_append_right _ List.mem_cons_self)
    have hnodup := (List.nodup_cons.mp hnodup).2
    rw [List.cons_append, removeOldest, List.map_cons, List.sum_cons]
    by_cases hover : maxFiles < (older ++ item :: newer).length + 1 ∨
        maxBytes < stuck + (file.size + ((older ++ item :: newer).map Candidate.size).sum)
    · rw [if_pos hover]
      cases hfails : fails file.path with
      | true =>
        have hrest := @ih (stuck + file.size) hnodup
        rw [if_pos rfl, ← Nat.add_assoc, propext hrest, stuckBytes_cons, hfails, if_pos rfl,
          Nat.add_assoc stuck]
      | false =>
        have htotal : stuck + (file.size + ((older ++ item :: newer).map Candidate.size).sum) -
            file.size = stuck + ((older ++ item :: newer).map Candidate.size).sum := by omega
        have hrest := @ih stuck hnodup
        rw [if_neg Bool.false_ne_true, List.mem_cons, or_iff_right hne, htotal, propext hrest,
          stuckBytes_cons, hfails, if_neg Bool.false_ne_true, Nat.zero_add]
    · rw [if_neg hover]
      refine iff_of_false List.not_mem_nil fun h => hover ?_
      have hstuck := stuckBytes_le fails (file :: older)
      rw [List.map_cons, List.sum_cons] at hstuck
      rw [List.length_append, List.length_cons, List.map_append, List.sum_append]
      rcases h.2 with hfiles | hbytes
      · exact Or.inl (by omega)
      · exact Or.inr (by omega)

variable {n m} {d : Disk} {path : Path} {v : Stored}

theorem candidate_inj {dir : Path} {v v' : Stored} (hv : v ∈ d.versions) (hv' : v' ∈ d.versions)
    (h : candidate dir v = candidate dir v') : v = v' := by
  have hname : v.name = v'.name := by
    have hpath := congrArg Candidate.path h
    exact (List.cons.inj (List.append_cancel_left hpath)).1
  exact List.inj_on_of_nodup_map d.distinct hv hv' hname

theorem nodup_candidates (a : PruneAnswers) (dir : Path) (d : Disk) :
    (candidates a dir d.versions).Nodup := by
  refine List.Nodup.map_on (fun v hv v' hv' => ?_) (d.distinct.of_map.filter _)
  exact candidate_inj (List.mem_of_mem_filter hv) (List.mem_of_mem_filter hv')

/-- In the order of age the version is over a limit, counted with the newer ones and with the older
ones that cannot be removed. -/
structure Displaced (n : Naming) (m : Manager) (a : PruneAnswers) (versions : List Stored)
    (v : Stored) : Prop where
  listed : a.readDir = none
  seen : a.info v.name = false
  removed : a.remove (versionsDir m ++ [v.name]) = false
  limit : ∃ older newer, n.byAge (candidates a (versionsDir m) versions) =
      older ++ candidate (versionsDir m) v :: newer ∧
    (maxStoredFiles < newer.length + 1 ∨
      maxStoredBytes < stuckBytes a.remove older + (candidate (versionsDir m) v).size +
        (newer.map Candidate.size).sum)

/-- A directory within its limits is left alone. -/
theorem not_displaced_of_room {a : PruneAnswers} {versions : List Stored}
    (hfiles : versions.length ≤ maxStoredFiles)
    (hbytes : (versions.map fun v => v.content.length).sum ≤ maxStoredBytes) :
    ¬ Displaced n m a versions v := by
  intro h
  obtain ⟨older, newer, hsplit, hover⟩ := h.limit
  have hperm := n.byAge_perm (candidates a (versionsDir m) versions)
  rw [hsplit] at hperm
  have hlength := hperm.length_eq
  have hsum := (hperm.map Candidate.size).sum_nat
  have hseen := List.length_filter_le (fun v : Stored => !a.info v.name) versions
  have hsizes := sum_filter_le (fun v : Stored => !a.info v.name) (·.content.length) versions
  have hstuck := stuckBytes_le a.remove older
  rw [candidates, List.length_map, List.length_append, List.length_cons] at hlength
  rw [candidates, List.map_map, List.map_append, List.sum_append, List.map_cons, List.sum_cons] at hsum
  change _ = ((versions.filter fun v => !a.info v.name).map (·.content.length)).sum at hsum
  rcases hover with hover | hover <;> omega

def pruned (n : Naming) (m : Manager) (a : PruneAnswers) (d : Disk) : Disk :=
  pruneDirectory n a (versionsDir m) maxStoredBytes maxStoredFiles d

theorem mem_pruned_iff {a : PruneAnswers} :
    v ∈ (pruned n m a d).versions ↔ v ∈ d.versions ∧ ¬ Displaced n m a d.versions v := by
  unfold pruned pruneDirectory
  cases hlisted : a.readDir with
  | some errno =>
    refine ⟨fun hv => ⟨hv, fun h => ?_⟩, fun h => h.1⟩
    have hnone := h.listed
    rw [hlisted] at hnone
    cases hnone
  | none =>
    have hperm := n.byAge_perm (candidates a (versionsDir m) d.versions)
    have hnodup := hperm.nodup_iff.mpr (nodup_candidates a (versionsDir m) d)
    have hsum := (hperm.map Candidate.size).sum_nat
    dsimp only
    rw [Disk.keeping, List.mem_filter, decide_eq_true_iff, and_congr_right_iff]
    intro hv
    refine not_congr ?_
    rw [← hsum]
    constructor
    · intro hremoved
      have hsorted : candidate (versionsDir m) v ∈ n.byAge (candidates a (versionsDir m) d.versions) :=
        removeOldest_subset hremoved
      obtain ⟨v', hv', heq⟩ := List.mem_map.mp (hperm.mem_iff.mp hsorted)
      obtain ⟨hmem, hseen⟩ := List.mem_filter.mp hv'
      obtain rfl := candidate_inj hmem hv heq
      obtain ⟨older, newer, hsplit⟩ := List.append_of_mem hsorted
      rw [hsplit] at hnodup hremoved
      rw [← Nat.zero_add (List.sum _), mem_removeOldest_iff hnodup] at hremoved
      refine ⟨hlisted, by simpa using hseen, hremoved.1, older, newer, hsplit, ?_⟩
      simpa [Nat.add_assoc] using hremoved.2
    · intro h
      obtain ⟨older, newer, hsplit, hover⟩ := h.limit
      rw [hsplit] at hnodup ⊢
      rw [← Nat.zero_add (List.sum _), mem_removeOldest_iff hnodup]
      exact ⟨h.removed, by simpa [Nat.add_assoc] using hover⟩

theorem pruned_same {a : PruneAnswers} :
    (pruned n m a d).file = d.file ∧ (pruned n m a d).temps = d.temps := by
  unfold pruned pruneDirectory
  split <;> exact ⟨rfl, rfl⟩

/-! ## What a backup does -/

open Prog

theorem ends_step {fails : Option Errno} {Q : Unit → Disk → Prop} {E : Err → Disk → Prop} :
    Ends (step fails) d Q E ↔
      (fails = none → Q () d) ∧ ∀ errno, fails = some errno → E (.sys errno) d := by
  unfold step
  rw [ends_read]
  cases fails with
  | none => exact ⟨fun h => ⟨fun _ => h.1 () rfl, nofun⟩, fun h => ⟨fun _ _ => h.1 rfl, nofun⟩⟩
  | some errno =>
    refine ⟨fun h => ⟨nofun, fun errno' herr => ?_⟩, fun h => ⟨nofun, fun err herr => ?_⟩⟩
    · obtain rfl := Option.some.inj herr
      exact h.2 _ rfl
    · obtain rfl := Except.error.inj herr
      exact h.2 errno rfl

theorem versions_withVersion (h : v.name ∉ d.versions.map (·.name)) :
    (d.withVersion v).versions = d.versions ++ [v] := by
  rw [Disk.withVersion, dif_pos h]

theorem withVersion_same : (d.withVersion v).file = d.file ∧ (d.withVersion v).temps = d.temps := by
  unfold Disk.withVersion
  split <;> exact ⟨rfl, rfl⟩

theorem subset_withVersion : d.versions ⊆ (d.withVersion v).versions := by
  unfold Disk.withVersion
  split
  · exact List.subset_append_left _ _
  · exact List.Subset.refl _

/-- Every step up to the pruning succeeds. -/
structure Backed (n : Naming) (a : BackupAnswers) (path : Path) (d : Disk) : Prop where
  openSource : a.openSource = none
  mkdirAll : a.mkdirAll = none
  create : a.create = none
  short : (versionName n a.now path).utf8ByteSize ≤ 255
  fresh : versionName n a.now path ∉ d.versions.map (·.name)
  copy : a.copy = none
  close : a.close = none

/-- The version that is made. -/
def made (n : Naming) (a : BackupAnswers) (path : Path) (d : Disk) : Stored :=
  ⟨versionName n a.now path, d.file.content, a.time⟩

/-- A file of more than 20 MB is not backed up. -/
def afterBackup (n : Naming) (m : Manager) (a : BackupAnswers) (path : Path) (d : Disk) : Disk :=
  if maxVersionSize < d.file.content.length then d
  else pruned n m a.prune (d.withVersion (made n a path d))

/-- No version is gone, and the file and its neighbours are as they were. -/
structure Keeps (d d' : Disk) : Prop where
  versions : d.versions ⊆ d'.versions
  file : d'.file = d.file
  temps : d'.temps = d.temps

theorem Keeps.refl (d : Disk) : Keeps d d := ⟨List.Subset.refl _, rfl, rfl⟩

theorem keeps_withVersion : Keeps d (d.withVersion v) :=
  ⟨subset_withVersion, withVersion_same.1, withVersion_same.2⟩

theorem ends_backup (a : BackupAnswers) :
    Ends (backup n m a path) d
      (fun _ d' => (d.file.content.length ≤ maxVersionSize → Backed n a path d) ∧
        d' = afterBackup n m a path d)
      (fun _ d' => d.file.content.length ≤ maxVersionSize ∧ ¬ Backed n a path d ∧ Keeps d d') := by
  unfold backup
  rw [ends_bind, ends_get, ends_ite]
  refine ⟨fun hlarge => ends_pure.mpr ⟨fun h => absurd hlarge (Nat.not_lt.mpr h), ?_⟩, fun hsmall => ?_⟩
  · rw [afterBackup, if_pos hlarge]
  have hlength := Nat.not_lt.mp hsmall
  rw [ends_bind, ends_step]
  refine ⟨fun hopen => ?_, fun errno herr => ⟨hlength, fun h => ?_, .refl d⟩⟩
  swap
  · cases herr.symm.trans h.openSource
  rw [ends_bind, ends_step]
  refine ⟨fun hmkdir => ?_, fun errno herr => ⟨hlength, fun h => ?_, .refl d⟩⟩
  swap
  · cases herr.symm.trans h.mkdirAll
  rw [ends_bind, ends_step]
  refine ⟨fun hcreate => ?_, fun errno herr => ⟨hlength, fun h => ?_, .refl d⟩⟩
  swap
  · cases herr.symm.trans h.create
  rw [ends_bind, ends_check]
  refine ⟨fun hlong => ⟨hlength, fun h => Nat.not_lt.mpr h.short hlong, .refl d⟩, fun hshort => ?_⟩
  rw [ends_bind, ends_check]
  refine ⟨fun hthere => ⟨hlength, fun h => h.fresh hthere, .refl d⟩, fun hfresh => ?_⟩
  cases hcopy : a.copy with
  | some failed =>
    have hnot : ¬ Backed n a path d := fun h => by cases hcopy.symm.trans h.copy
    dsimp only
    rw [ends_bind, ends_modify, ends_fail]
    refine ⟨hlength, hnot, ?_⟩
    split
    · exact keeps_withVersion
    · exact .refl d
  | none =>
    rw [ends_bind, ends_modify, ends_bind, ends_step]
    refine ⟨fun hclose => ends_modify.mpr ⟨fun _ => ?_, ?_⟩, fun errno herr =>
      ⟨hlength, fun h => ?_, keeps_withVersion⟩⟩
    · exact ⟨hopen, hmkdir, hcreate, Nat.not_lt.mp hshort, hfresh, hcopy, hclose⟩
    · rw [afterBackup, if_neg hsmall]
      rfl
    · cases herr.symm.trans h.close

/-! ## What a replacement does -/

/-- Every step succeeds; the owner need not be set. -/
structure Replaces (a : ReplaceAnswers) : Prop where
  createTemp : a.createTemp = none
  chmod : a.chmod = none
  write : a.write = none
  sync : a.sync = none
  close : a.close = none
  chown : a.chown.any (· ≠ .EPERM) = false
  rename : a.rename = none

/-- The file that takes the place of `file`. -/
def replacement (a : ReplaceAnswers) (content : Bytes) (file : Edited) : Edited :=
  let owner := if a.chown.isSome then a.owner else (file.uid, file.gid)
  ⟨content, ⟨file.mode.perm, false, false, false⟩, owner.1, owner.2⟩

/-- The temporary file was made and cannot be removed. -/
def leavesTemp (a : ReplaceAnswers) : Bool := a.createTemp.isNone && a.removeTemp.isSome

theorem ends_fillTemp (a : ReplaceAnswers) (content : Bytes) (hcreate : a.createTemp = none) :
    Ends (fillTemp a content (pure ())) { d with temps := d.temps + 1 }
      (fun _ d' => Replaces a ∧ d' = { d with file := replacement a content d.file })
      (fun _ d' => ¬ Replaces a ∧ d' = { d with temps := d.temps + 1 }) := by
  unfold fillTemp
  rw [ends_bind, ends_get, ends_bind, ends_step]
  refine ⟨fun hchmod => ?_, fun errno herr => ⟨fun h => ?_, rfl⟩⟩
  swap
  · cases herr.symm.trans h.chmod
  rw [ends_bind, ends_step]
  refine ⟨fun hwrite => ?_, fun errno herr => ⟨fun h => ?_, rfl⟩⟩
  swap
  · cases herr.symm.trans h.write
  rw [ends_bind, ends_pure, ends_bind, ends_step]
  refine ⟨fun hsync => ?_, fun errno herr => ⟨fun h => ?_, rfl⟩⟩
  swap
  · cases herr.symm.trans h.sync
  rw [ends_bind, ends_step]
  refine ⟨fun hclose => ?_, fun errno herr => ⟨fun h => ?_, rfl⟩⟩
  swap
  · cases herr.symm.trans h.close
  rw [ends_bind, ends_check]
  refine ⟨fun hchown => ⟨fun h => ?_, rfl⟩, fun hchown => ?_⟩
  · cases hchown.symm.trans h.chown
  rw [ends_bind, ends_step]
  refine ⟨fun hrename => ends_modify.mpr ⟨?_, rfl⟩, fun errno herr => ⟨fun h => ?_, rfl⟩⟩
  · exact ⟨hcreate, hchmod, hwrite, hsync, hclose, Bool.not_eq_true _ ▸ hchown, hrename⟩
  · cases herr.symm.trans h.rename

theorem ends_replace (a : ReplaceAnswers) (content : Bytes) :
    Ends (replace a content (pure ())) d
      (fun _ d' => Replaces a ∧ d' = { d with file := replacement a content d.file })
      (fun _ d' => ¬ Replaces a ∧
        d' = { d with temps := d.temps + if leavesTemp a then 1 else 0 }) := by
  unfold replace leavesTemp
  rw [ends_bind, ends_step]
  refine ⟨fun hcreate => ?_, fun errno herr => ⟨fun h => ?_, ?_⟩⟩
  · rw [ends_bind, ends_modify, ends_onFail]
    refine (ends_fillTemp a content hcreate).mono (fun _ d' h => h) fun _ d' h => ?_
    obtain ⟨hnot, rfl⟩ := h
    cases hremove : a.removeTemp with
    | none => exact ⟨hnot, by simp⟩
    | some errno => exact ⟨hnot, by simp [hcreate]⟩
  · cases herr.symm.trans h.createTemp
  · simp [herr]

end LukePanel.Files.BackupFiles
