import LukePanel.Files.EditBackups

/-! # Restoring a version

`RestoreBackup` of a version that `ListBackups` returns: the backup it makes first prunes the
directory that the version is in. -/
namespace LukePanel.Files.RestoreVersions
open LukePanel.Library.Attempt LukePanel.Library.FileSystem LukePanel.Library.Syscalls
open LukePanel.Library
open LukePanel.Library.GoStrings (contains join split split_join)
open LukePanel.Files.Paths LukePanel.Files.Versions LukePanel.Files.VersionOwners
open LukePanel.Files.BackupFiles
open LukePanel.Files.EditBackups
open Prog

/-- What is listed when the entries of some names cannot be looked at. -/
def listBackups (n : Naming) (info : String → Bool) (path : Path) (d : Disk) :
    List BackupVersion :=
  (n.byNewest ((d.versions.filter fun v => listedFor n path v && !info v.name).map
    (listing path))).take maxListed

/-- The content of a version, if it is there. -/
def contentOf (d : Disk) (id : String) : Option Bytes :=
  (d.versions.find? (·.name = id)).map Stored.content

/-- No call fails. -/
structure CalmRestore (a : RestoreAnswers) : Prop where
  resolve : a.resolve = none
  stat : a.stat = none
  backup : CalmBackup a.backup
  openVersion : a.openVersion = none
  replace : CalmReplace a.replace

/-- Without a failure the file gets the content of the version; with one the version is still there
and the file as it was. -/
structure Right (a : RestoreAnswers) (id : String) (d : Disk) (result : Except Err Unit × Disk) :
    Prop where
  succeeds : CalmRestore a → result.1 = .ok () ∧ some result.2.file.content = contentOf d id
  error : ∀ err, result.1 = .error err →
    contentOf result.2 id = contentOf d id ∧ result.2.file = d.file

/-- The version is not refused. -/
structure Accepted (path : Path) (v : Stored) : Prop where
  writable : isVirtual path = false
  plain : v.name.toList.any (· ∈ ['/', '\\']) = false
  small : v.content.length ≤ maxVersionSize

/-- A backup of the file as it is can be made. -/
structure Saves (n : Naming) (a : BackupAnswers) (path : Path) (d : Disk) : Prop where
  short : (baseOf path).utf8ByteSize ≤ 208
  fresh : versionName n a.now path ∉ d.versions.map (·.name)

/-- The backup is made, and the version is pruned. -/
structure Loses (n : Naming) (m : Manager) (a : RestoreAnswers) (path : Path) (d : Disk)
    (v : Stored) : Prop where
  resolve : a.resolve = none
  stat : a.stat = none
  accepted : Accepted path v
  small : d.file.content.length ≤ maxVersionSize
  backed : Backed n a.backup path d
  displaced : Displaced n m a.backup.prune (d.versions ++ [made n a.backup path d]) v

variable {n : Naming} {m : Manager} {d : Disk} {path : Path} {v : Stored}

/-! ## Looking a version up -/

theorem find_name (hv : v ∈ d.versions) : d.versions.find? (·.name = v.name) = some v := by
  cases hfind : d.versions.find? (·.name = v.name) with
  | none => exact absurd (decide_eq_true rfl) (List.find?_eq_none.mp hfind v hv)
  | some found =>
    have hname : found.name = v.name := by simpa using List.find?_some hfind
    rw [List.inj_on_of_nodup_map d.distinct (List.mem_of_find?_eq_some hfind) hv hname]

theorem contentOf_of_mem (hv : v ∈ d.versions) : contentOf d v.name = some v.content := by
  rw [contentOf, find_name hv]
  rfl

/-! ## What a restore does -/

theorem base_of_plain {s : String} (hne : s ≠ "") (h : '/' ∉ s.toList) : base s = s := by
  have hjoin : join '/' [s] = s := by simp [join]
  have hsplit : split '/' (join '/' [s]) = [s] := by
    refine split_join (List.cons_ne_nil _ _) fun part hpart => ?_
    rwa [List.mem_singleton.mp hpart]
  rw [hjoin] at hsplit
  rw [base, if_neg hne, hsplit, List.filter_cons_of_pos (by simpa using hne)]
  rfl

theorem ends_resolveBackup {stat : Option Errno} (hv : v ∈ d.versions)
    (hlisted : listedFor n path v = true) :
    Ends (BackupFiles.resolveBackup n stat path v.name) d
      (fun found d' => d' = d ∧ found = v ∧ stat = none ∧
        v.name.toList.any (· ∈ ['/', '\\']) = false)
      (fun _ d' => d' = d ∧ ¬ (stat = none ∧ v.name.toList.any (· ∈ ['/', '\\']) = false)) := by
  obtain ⟨hcontains, hends⟩ := Bool.and_eq_true_iff.mp hlisted
  have hne : v.name ≠ "" := by
    intro hempty
    rw [hempty] at hends
    exact absurd hends (by decide)
  unfold BackupFiles.resolveBackup
  rw [ends_bind, ends_check]
  refine ⟨fun hbad => ⟨rfl, fun h => ?_⟩, fun hgood => ?_⟩
  · have hslash : '/' ∉ v.name.toList := by
      intro hmem
      have hnot := List.any_eq_false.mp h.2 '/' hmem
      exact hnot (by decide)
    rcases hbad with hbad | hbad | hbad | hbad
    · exact hne hbad
    · exact hbad (base_of_plain hne hslash)
    · cases hbad.symm.trans h.2
    · cases hbad.symm.trans hends
  have hplain : v.name.toList.any (· ∈ ['/', '\\']) = false :=
    Bool.eq_false_iff.mpr fun hany => hgood (.inr (.inr (.inl hany)))
  rw [ends_bind, ends_check]
  refine ⟨fun hnot => ?_, fun _ => ?_⟩
  · cases hnot.symm.trans hcontains
  rw [ends_bind, ends_step]
  refine ⟨fun hstat => ?_, fun errno herr => ⟨rfl, fun h => ?_⟩⟩
  swap
  · cases herr.symm.trans h.1
  rw [ends_read, find_name hv]
  refine ⟨fun found hfound => ?_, nofun⟩
  cases hfound
  exact ⟨rfl, rfl, hstat, hplain⟩

/-- Every step succeeds. -/
structure Restores (n : Naming) (m : Manager) (a : RestoreAnswers) (path : Path) (d : Disk)
    (v : Stored) : Prop where
  resolve : a.resolve = none
  stat : a.stat = none
  accepted : Accepted path v
  backed : d.file.content.length ≤ maxVersionSize → Backed n a.backup path d
  kept : v ∈ (afterBackup n m a.backup path d).versions
  openVersion : a.openVersion = none
  replaces : Replaces a.replace

theorem find_pruned {a : RestoreAnswers} (hv : v ∈ d.versions)
    (hbacked : d.file.content.length ≤ maxVersionSize → Backed n a.backup path d)
    (hgone : v ∉ (afterBackup n m a.backup path d).versions) :
    (afterBackup n m a.backup path d).versions.find? (·.name = v.name) = none := by
  refine List.find?_eq_none.mpr fun other hother hdecide => hgone ?_
  have hname : other.name = v.name := of_decide_eq_true hdecide
  suffices hmem : other ∈ d.versions by
    rwa [List.inj_on_of_nodup_map d.distinct hmem hv hname] at hother
  by_cases hsmall : d.file.content.length ≤ maxVersionSize
  · have hfresh := (hbacked hsmall).fresh
    rw [mem_afterBackup_iff hsmall hfresh, List.mem_append, List.mem_singleton] at hother
    refine hother.1.resolve_right fun heq => hfresh ?_
    exact List.mem_map.mpr ⟨v, hv, by rw [← hname, heq]; rfl⟩
  · rwa [afterBackup, if_pos (Nat.not_le.mp hsmall)] at hother

/-- What is left of the version once the backup was made. -/
theorem contentOf_afterBackup {a : RestoreAnswers} (hv : v ∈ d.versions)
    (hbacked : d.file.content.length ≤ maxVersionSize → Backed n a.backup path d) :
    contentOf (afterBackup n m a.backup path d) v.name = contentOf d v.name ↔
      v ∈ (afterBackup n m a.backup path d).versions := by
  by_cases hkept : v ∈ (afterBackup n m a.backup path d).versions
  · exact iff_of_true ((contentOf_of_mem hkept).trans (contentOf_of_mem hv).symm) hkept
  · rw [contentOf, find_pruned hv hbacked hkept, contentOf_of_mem hv]
    exact iff_of_false nofun hkept

theorem not_loses_iff {a : RestoreAnswers} (hv : v ∈ d.versions) (hresolve : a.resolve = none)
    (hstat : a.stat = none) (haccepted : Accepted path v)
    (hbacked : d.file.content.length ≤ maxVersionSize → Backed n a.backup path d) :
    ¬ Loses n m a path d v ↔ v ∈ (afterBackup n m a.backup path d).versions := by
  by_cases hsmall : d.file.content.length ≤ maxVersionSize
  · rw [mem_afterBackup_iff hsmall (hbacked hsmall).fresh,
      and_iff_right (List.mem_append_left _ hv), not_iff_not]
    exact ⟨Loses.displaced, fun h => ⟨hresolve, hstat, haccepted, hsmall, hbacked hsmall, h⟩⟩
  · rw [afterBackup, if_pos (Nat.not_le.mp hsmall)]
    exact iff_of_true (fun h => hsmall h.small) hv

theorem ends_restoreBackup (a : RestoreAnswers) (hv : v ∈ d.versions)
    (hlisted : listedFor n path v = true) :
    Ends (BackupFiles.restoreBackup n m a path v.name) d
      (fun _ d' => Restores n m a path d v ∧
        d'.file = replacement a.replace v.content d.file)
      (fun _ d' => ¬ Restores n m a path d v ∧ d'.file = d.file ∧
        (contentOf d' v.name = contentOf d v.name ↔ ¬ Loses n m a path d v)) := by
  unfold BackupFiles.restoreBackup
  rw [ends_bind, ends_resolveExisting]
  refine ⟨fun hresolve => ?_, fun err herr => ?_⟩
  swap
  · have hnot : a.resolve ≠ none := fun h => by cases herr.symm.trans h
    exact ⟨fun h => hnot h.resolve, rfl, iff_of_true rfl fun h => hnot h.resolve⟩
  unfold ensureWritablePath
  rw [ends_bind, ends_check]
  refine ⟨fun hvirtual => ⟨fun h => ?_, rfl, iff_of_true rfl fun h => ?_⟩, fun hvirtual => ?_⟩
  · cases hvirtual.symm.trans h.accepted.writable
  · cases hvirtual.symm.trans h.accepted.writable
  have hwritable := Bool.not_eq_true _ ▸ hvirtual
  rw [ends_bind]
  refine (ends_resolveBackup hv hlisted).mono (fun found d' h => ?_) fun err d' h => ?_
  swap
  · obtain ⟨rfl, hnot⟩ := h
    exact ⟨fun h => hnot ⟨h.stat, h.accepted.plain⟩, rfl,
      iff_of_true rfl fun h => hnot ⟨h.stat, h.accepted.plain⟩⟩
  obtain ⟨rfl, rfl, hstat, hplain⟩ := h
  rw [ends_bind, ends_check]
  refine ⟨fun hlarge => ?_, fun hsmall => ?_⟩
  · exact ⟨fun h => Nat.not_lt.mpr h.accepted.small hlarge, rfl,
      iff_of_true rfl fun h => Nat.not_lt.mpr h.accepted.small hlarge⟩
  have haccepted : Accepted path found := ⟨hwritable, hplain, Nat.not_lt.mp hsmall⟩
  rw [ends_bind, ends_mapError]
  refine (ends_backup a.backup).mono (fun _ d₁ h => ?_) fun err d₁ h => ?_
  swap
  · -- the backup fails before anything is pruned
    obtain ⟨hfile, hnot, hkeeps⟩ := h
    refine ⟨fun h => hnot (h.backed hfile), hkeeps.file, iff_of_true ?_ fun h => hnot h.backed⟩
    exact (contentOf_of_mem (hkeeps.versions hv)).trans (contentOf_of_mem hv).symm
  obtain ⟨hbacked, rfl⟩ := h
  have hsame := @afterBackup_same n m d' path a.backup
  have hleft := @contentOf_afterBackup n m d' path found a hv hbacked
  have hlost := @not_loses_iff n m d' path found a hv hresolve hstat haccepted hbacked
  rw [ends_bind, ends_step]
  refine ⟨fun hopen => ?_, fun errno herr => ⟨fun h => ?_, hsame.1, hleft.trans hlost.symm⟩⟩
  swap
  · cases herr.symm.trans h.openVersion
  rw [ends_bind, ends_read]
  by_cases hkept : found ∈ (afterBackup n m a.backup path d').versions
  swap
  · -- the version was pruned
    rw [find_pruned hv hbacked hkept]
    refine ⟨nofun, fun err _ => ⟨fun h => hkept h.kept, hsame.1, hleft.trans hlost.symm⟩⟩
  rw [find_name hkept]
  refine ⟨fun opened hopened => ?_, nofun⟩
  cases hopened
  have htake : found.content.take (maxVersionSize + 1) = found.content :=
    List.take_of_length_le (Nat.le_succ_of_le haccepted.small)
  have hcheck : (Prog.check (maxVersionSize < found.content.length)
      (.msg "备份文件超过 20MB，无法在线恢复") : Run Unit) = pure () := if_neg hsmall
  dsimp only
  rw [htake, hcheck]
  refine (ends_replace a.replace found.content).mono (fun _ d₂ h => ?_) fun err d₂ h => ?_
  · obtain ⟨hreplaces, rfl⟩ := h
    refine ⟨⟨hresolve, hstat, haccepted, hbacked, hkept, hopen, hreplaces⟩, ?_⟩
    dsimp only
    rw [hsame.1]
  · obtain ⟨hfails, rfl⟩ := h
    exact ⟨fun h => hfails h.replaces, hsame.1, hleft.trans hlost.symm⟩

/-! ## When a restore is right -/

theorem saves_of_backed {a : BackupAnswers} (h : Backed n a path d) : Saves n a path d := by
  have hname := h.short
  rw [utf8ByteSize_versionName] at hname
  exact ⟨by omega, h.fresh⟩

theorem listedFor_of_listed {info : String → Bool} (hv : v ∈ d.versions)
    (h : listing path v ∈ listBackups n info path d) : listedFor n path v = true := by
  have hmem := (n.byNewest_perm _).mem_iff.mp (List.mem_of_mem_take h)
  obtain ⟨other, hother, heq⟩ := List.mem_map.mp hmem
  obtain ⟨hstored, hlisted⟩ := List.mem_filter.mp hother
  have hname : other.name = v.name := congrArg BackupVersion.id heq
  rw [List.inj_on_of_nodup_map d.distinct hstored hv hname] at hlisted
  exact (Bool.and_eq_true_iff.mp hlisted).1

theorem right_of_listedFor {a : RestoreAnswers} (hv : v ∈ d.versions)
    (hlisted : listedFor n path v = true) :
    Right a v.name d (BackupFiles.restoreBackup n m a path v.name d) ↔
      (CalmRestore a → Accepted path v ∧
        (d.file.content.length ≤ maxVersionSize → Saves n a.backup path d)) ∧
      ¬ Loses n m a path d v := by
  obtain ⟨hok, herror⟩ := ends_def.mp (@ends_restoreBackup n m d path v a hv hlisted)
  generalize BackupFiles.restoreBackup n m a path v.name d = result at hok herror ⊢
  obtain ⟨outcome, after⟩ := result
  cases outcome with
  | ok u =>
    obtain ⟨hrestores, hfile⟩ := hok u rfl
    have hkept : ¬ Loses n m a path d v := (not_loses_iff hv hrestores.resolve hrestores.stat
      hrestores.accepted hrestores.backed).mpr hrestores.kept
    refine iff_of_true ⟨fun _ => ⟨rfl, ?_⟩, nofun⟩ ⟨fun _ => ⟨hrestores.accepted, ?_⟩, hkept⟩
    · dsimp only
      rw [hfile, contentOf_of_mem hv]
      rfl
    · exact fun hsmall => saves_of_backed (hrestores.backed hsmall)
  | error err =>
    obtain ⟨hnot, hsame, hleft⟩ := herror err rfl
    constructor
    · intro h
      refine ⟨fun hcalm => ?_, hleft.mp (h.error err rfl).1⟩
      cases (h.succeeds hcalm).1
    · rintro ⟨hcalm, hkept⟩
      refine ⟨fun h => absurd ?_ hnot, fun _ _ => ⟨hleft.mpr hkept, hsame⟩⟩
      obtain ⟨haccepted, hsaves⟩ := hcalm h
      have hbacked : d.file.content.length ≤ maxVersionSize → Backed n a.backup path d :=
        fun hsmall => backed_of_calm h.backup (hsaves hsmall).short (hsaves hsmall).fresh
      exact ⟨h.resolve, h.stat, haccepted, hbacked,
        (not_loses_iff hv h.resolve h.stat haccepted hbacked).mp hkept, h.openVersion,
        replaces_of_calm h.replace⟩

/-- A restore of a listed version is right just in case nothing stands in the way of it and of the
backup before it if no call fails, and that backup does not prune the version. -/
theorem restore_iff {a : RestoreAnswers} (info : String → Bool) (hv : v ∈ d.versions)
    (hlisted : listing path v ∈ listBackups n info path d) :
    Right a v.name d (BackupFiles.restoreBackup n m a path v.name d) ↔
      (CalmRestore a → Accepted path v ∧
        (d.file.content.length ≤ maxVersionSize → Saves n a.backup path d)) ∧
      ¬ Loses n m a path d v :=
  right_of_listedFor hv (listedFor_of_listed hv hlisted)

/-! ## A store with one version, and a full one -/

def calmRestore : RestoreAnswers := ⟨none, none, calmBackup, none, calmReplace⟩

theorem calm_calmRestore : CalmRestore calmRestore :=
  ⟨rfl, rfl, calm_calmWrite.backup, rfl, calm_calmWrite.replace⟩

/-- A version from the time before. -/
def old : Stored := ⟨"20250101T000000.000000000-0123456789abcdef-motd.bak", [98], 0⟩

def oneVersion : Disk := ⟨[old], List.nodup_singleton _, fresh.file, 0⟩

theorem old_restored : Right calmRestore old.name oneVersion
    (BackupFiles.restoreBackup (Naming.single motd) Manager.whole calmRestore motd old.name
      oneVersion) := by
  refine (restore_iff (fun _ => false) (List.mem_singleton_self _) (by decide +kernel)).mpr
    ⟨fun _ => ⟨⟨by decide, by decide +kernel, by decide⟩, fun _ => ⟨by decide, ?_⟩⟩, fun h => ?_⟩
  · decide +kernel
  · exact not_displaced_of_room (by decide) (by decide) h.displaced

theorem oldest_first {item : Candidate} {sorted : List Candidate} (hnodup : sorted.Nodup)
    (hsorted : sorted.Pairwise fun x y => x.time ≤ y.time) (hmem : item ∈ sorted)
    (holdest : ∀ other ∈ sorted, other ≠ item → item.time < other.time) :
    ∃ newer, sorted = item :: newer := by
  obtain ⟨older, newer, rfl⟩ := List.append_of_mem hmem
  cases older with
  | nil => exact ⟨newer, rfl⟩
  | cons first rest =>
    have hne : first ≠ item := by
      rintro rfl
      exact (List.nodup_cons.mp hnodup).1 (List.mem_append_right _ List.mem_cons_self)
    have hle := List.rel_of_pairwise_cons hsorted (List.mem_append_right _ List.mem_cons_self)
    exact absurd (holdest first List.mem_cons_self hne) (Nat.not_lt.mpr hle)

/-- Of too many files the oldest is pruned. -/
theorem displaced_of_oldest {a : PruneAnswers} (hcalm : a.readDir = none)
    (hinfo : ∀ name, a.info name = false) (hremove : ∀ path, a.remove path = false)
    (hv : v ∈ d.versions) (holdest : ∀ other ∈ d.versions, other ≠ v → v.time < other.time)
    (hmany : maxStoredFiles < d.versions.length) : Displaced n m a d.versions v := by
  have hall : candidates a (versionsDir m) d.versions =
      d.versions.map (candidate (versionsDir m)) := by
    refine congrArg _ (List.filter_eq_self.mpr fun v _ => ?_)
    rw [hinfo, Bool.not_false]
  have hnodup := nodup_candidates a (versionsDir m) d
  have hperm := n.byAge_perm (candidates a (versionsDir m) d.versions)
  have hsorted := n.byAge_sorted (candidates a (versionsDir m) d.versions)
  generalize hfiles : n.byAge (candidates a (versionsDir m) d.versions) = files at hperm hsorted
  rw [← hperm.nodup_iff] at hnodup
  rw [hall] at hperm
  have hmem : candidate (versionsDir m) v ∈ files := hperm.mem_iff.mpr (List.mem_map_of_mem hv)
  have holder : ∀ other ∈ files, other ≠ candidate (versionsDir m) v → v.time < other.time := by
    intro other hother hne
    obtain ⟨stored, hstored, rfl⟩ := List.mem_map.mp (hperm.mem_iff.mp hother)
    exact holdest stored hstored fun heq => hne (congrArg _ heq)
  obtain ⟨newer, rfl⟩ := oldest_first hnodup hsorted hmem holder
  have hlength := hperm.length_eq
  rw [List.length_cons, List.length_map] at hlength
  exact ⟨hcalm, hinfo _, hremove _, [], newer, hfiles, .inl (by omega)⟩

/-- A file whose name has a character more than a hundred of another. -/
def otherFile (i : ℕ) : Path :=
  ["srv", String.ofList (List.replicate (i % 100 + 1) 'x' ++ List.replicate (i / 100 + 1) 'y')]

/-- Versions of other files. -/
def others : List Stored :=
  (List.range 499).map fun i => ⟨versionName (Naming.single motd) 0 (otherFile i), [], i + 1⟩

theorem toList_baseOf_otherFile (i : ℕ) : (baseOf (otherFile i)).toList =
    List.replicate (i % 100 + 1) 'x' ++ List.replicate (i / 100 + 1) 'y' := String.toList_ofList

theorem pathHash_otherFile (i : ℕ) :
    (Naming.single motd).pathHash (otherFile i) ≠ (Naming.single motd).pathHash motd :=
  Naming.single_pathHash_ne fun heq => absurd (List.cons.inj heq).1 (by decide)

theorem injective_name :
    Function.Injective fun i => versionName (Naming.single motd) 0 (otherFile i) := by
  intro i j h
  have hchars := congrArg String.toList h
  have hhash := hash_eq_of_versionName h
  simp only [toList_versionName, hhash] at hchars
  have hbase := (List.cons.inj (List.append_cancel_left (List.cons.inj
    (List.append_cancel_left hchars)).2)).2
  rw [List.append_cancel_right_eq, toList_baseOf_otherFile, toList_baseOf_otherFile] at hbase
  have hx := congrArg (List.count 'x') hbase
  have hy := congrArg (List.count 'y') hbase
  simp [List.count_replicate] at hx hy
  omega

/-- A version of another file is not listed. -/
theorem not_contains_of_other {v : Stored} (hv : v ∈ others) :
    contains v.name (mark (Naming.single motd) motd) = false := by
  obtain ⟨i, -, rfl⟩ := List.mem_map.mp hv
  have hplain : '-' ∉ (baseOf (otherFile i)).toList := by
    rw [toList_baseOf_otherFile, List.mem_append, not_or]
    exact ⟨fun h => absurd (List.eq_of_mem_replicate h) (by decide),
      fun h => absurd (List.eq_of_mem_replicate h) (by decide)⟩
  rw [← Bool.not_eq_true, contains_versionName 0 (pathHash_otherFile i)]
  rintro (hstart | hinside)
  · exact hplain (hstart.subset (List.mem_append_right _ List.mem_cons_self))
  · exact hplain (hinside.subset List.mem_cons_self)

theorem not_other_of_contains {name : String}
    (h : contains name (mark (Naming.single motd) motd) = true) : name ∉ others.map (·.name) := by
  intro hmem
  obtain ⟨v, hv, rfl⟩ := List.mem_map.mp hmem
  cases (not_contains_of_other hv).symm.trans h

/-- The store holds as many files as it may, and the oldest is the version. -/
def full : Disk where
  versions := old :: others
  distinct := by
    rw [List.map_cons, List.nodup_cons]
    refine ⟨not_other_of_contains (by decide +kernel), ?_⟩
    rw [others, List.map_map]
    exact List.nodup_range.map injective_name
  file := fresh.file
  temps := 0

theorem old_listed : listing motd old ∈
    listBackups (Naming.single motd) (fun _ => false) motd full := by
  have hfilter : full.versions.filter (fun v => listedFor (Naming.single motd) motd v && !false) =
      [old] := by
    have hold : (listedFor (Naming.single motd) motd old && !false) = true := by decide +kernel
    have hothers : others.filter
        (fun v => listedFor (Naming.single motd) motd v && !false) = [] := by
      refine List.filter_eq_nil_iff.mpr fun v hv => ?_
      rw [listedFor, not_contains_of_other hv, Bool.false_and, Bool.false_and]
      exact Bool.false_ne_true
    have hstored : full.versions = old :: others := rfl
    rw [hstored, List.filter_cons, if_pos hold, hothers]
  have hperm := (Naming.single motd).byNewest_perm [listing motd old]
  rw [listBackups, hfilter, List.map_singleton, List.perm_singleton.mp hperm]
  exact List.mem_singleton_self _

theorem old_lost : Loses (Naming.single motd) Manager.whole calmRestore motd full old := by
  have hnew : contains (versionName (Naming.single motd) calmBackup.now motd)
      (mark (Naming.single motd) motd) = true := by decide +kernel
  have hfresh : versionName (Naming.single motd) calmBackup.now motd ∉
      full.versions.map (·.name) := by
    rw [full, List.map_cons, List.mem_cons, not_or]
    exact ⟨by decide +kernel, not_other_of_contains hnew⟩
  have hbacked : Backed (Naming.single motd) calmRestore.backup motd full :=
    backed_of_calm calm_calmRestore.backup (by decide) hfresh
  have hversions := versions_withVersion
    (v := made (Naming.single motd) calmRestore.backup motd full) hfresh
  refine ⟨rfl, rfl, ⟨by decide, by decide +kernel, by decide⟩, by decide, hbacked, ?_⟩
  rw [← hversions]
  refine displaced_of_oldest rfl (fun _ => rfl) (fun _ => rfl) ?_ (fun other hother hne => ?_) ?_
  · rw [hversions]
    exact List.mem_append_left _ List.mem_cons_self
  · rw [hversions, List.mem_append, List.mem_singleton] at hother
    rcases hother with hother | rfl
    · rcases List.mem_cons.mp hother with rfl | hother
      · exact absurd rfl hne
      · obtain ⟨i, -, rfl⟩ := List.mem_map.mp hother
        exact Nat.succ_pos i
    · exact Nat.one_pos
  · have hothers : others.length = 499 := by rw [others, List.length_map, List.length_range]
    rw [hversions, List.length_append, full, List.length_cons, hothers]
    decide

/-- The backup that is made first removes the version that is to be restored. -/
theorem full_store_loses : CalmRestore calmRestore ∧ listing motd old ∈
      listBackups (Naming.single motd) (fun _ => false) motd full ∧
    ¬ Right calmRestore old.name full (BackupFiles.restoreBackup (Naming.single motd)
      Manager.whole calmRestore motd old.name full) := by
  refine ⟨calm_calmRestore, old_listed, fun hright => ?_⟩
  have hmem : old ∈ full.versions := List.mem_cons_self
  exact ((right_of_listedFor hmem (listedFor_of_listed hmem old_listed)).mp hright).2 old_lost

end LukePanel.Files.RestoreVersions
