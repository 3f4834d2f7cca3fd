import LukePanel.Files.BackupFiles
import LukePanel.Files.VersionOwners
import LukePanel.Library.GoStrings

/-! # What an edit leaves

`Write` of a file of at most 2 MB: when it does what it is for, and what it leaves when it fails. -/
namespace LukePanel.Files.EditBackups
open LukePanel.Library.Attempt LukePanel.Library.FileSystem
open LukePanel.Library.GoStrings (contains utf8ByteSize_ofList utf8ByteSize_of_ascii utf8Size_of_isDigit)
open LukePanel.Library.Syscalls (Path Err)
open LukePanel.Files.Paths LukePanel.Files.Versions LukePanel.Files.VersionOwners
open LukePanel.Files.BackupFiles
open Prog

variable {n : Naming} {m : Manager} {d : Disk} {path : Path} {content : Bytes}

/-! ## Names -/

theorem utf8ByteSize_stamp (time : ℕ) : (n.stamp time).utf8ByteSize = 25 := by
  refine (utf8ByteSize_of_ascii fun c hc => ?_).trans (n.stamp_length time)
  have hchar := List.all_eq_true.mp (n.stamp_chars time) c hc
  simp only [Bool.or_eq_true, decide_eq_true_iff] at hchar
  rcases hchar with (hdigit | rfl) | rfl
  · exact utf8Size_of_isDigit hdigit
  · decide
  · decide

theorem utf8ByteSize_hash (path : Path) : (n.pathHash path).utf8ByteSize = 16 := by
  refine (utf8ByteSize_of_ascii fun c hc => ?_).trans (n.hash_length path)
  have hchar := List.all_eq_true.mp (n.hash_chars path) c hc
  have hascii : ("0123456789abcdef".toList.all fun c => c.utf8Size = 1) = true := by decide
  exact of_decide_eq_true (List.all_eq_true.mp hascii c (List.contains_iff_mem.mp hchar))

theorem utf8ByteSize_versionName (time : ℕ) (path : Path) :
    (versionName n time path).utf8ByteSize = 47 + (baseOf path).utf8ByteSize := by
  have hhyphen : "-".utf8ByteSize = 1 := by decide
  have hending : ".bak".utf8ByteSize = 4 := by decide
  simp only [versionName, String.utf8ByteSize_append, utf8ByteSize_stamp, utf8ByteSize_hash, hhyphen,
    hending]
  omega

/-- A version of a file is listed for it. -/
theorem listedFor_of_name {v : Stored} {time : ℕ} (hname : v.name = versionName n time path) :
    listedFor n path v = true := by
  rw [listedFor, hname, hasSuffix_versionName, Bool.and_true, contains, decide_eq_true_iff, toList_mark,
    toList_versionName]
  refine ⟨(n.stamp time).toList, (baseOf path).toList ++ ".bak".toList, ?_⟩
  simp

/-! ## The newest version -/

/-- A version with the content is listed, and all others that are listed are older. -/
def NewestListed (n : Naming) (path : Path) (d : Disk) (content : Bytes) : Prop :=
  ∃ v ∈ d.versions, v.content = content ∧ listing path v ∈ listBackupsForResolved n path d ∧
    ∀ other ∈ listBackupsForResolved n path d, other.id ≠ v.name → other.createdAt < v.time

/-- Of the versions of the path that `kept` holds of, the newest has the content. -/
def NewestOf (n : Naming) (path : Path) (kept : Stored → Prop) (content : Bytes) : Prop :=
  ∃ v, kept v ∧ v.content = content ∧ listedFor n path v = true ∧
    ∀ other, kept other → listedFor n path other = true → other ≠ v → other.time < v.time

/-- A cut of a sorted list keeps the first element. -/
theorem newest_take_iff {versions sorted : List BackupVersion} {count : ℕ}
    (hids : (versions.map (·.id)).Nodup) (hperm : sorted.Perm versions)
    (hsorted : sorted.Pairwise fun a b => b.createdAt ≤ a.createdAt) (hcount : 2 ≤ count)
    {item : BackupVersion} (hitem : item ∈ versions) :
    (item ∈ sorted.take count ∧
      ∀ other ∈ sorted.take count, other.id ≠ item.id → other.createdAt < item.createdAt) ↔
    ∀ other ∈ versions, other.id ≠ item.id → other.createdAt < item.createdAt := by
  have hids' : (sorted.map (·.id)).Nodup := (hperm.map _).nodup_iff.mpr hids
  constructor
  · rintro ⟨-, htake⟩ other hother hne
    rw [← hperm.mem_iff, ← List.take_append_drop count sorted, List.mem_append] at hother
    rcases hother with hkept | hdropped
    · exact htake other hkept hne
    · -- Another one that was kept is at least as new.
      obtain ⟨between, hbetween, hid⟩ : ∃ between ∈ sorted.take count, between.id ≠ item.id := by
        have hlength : count ≤ sorted.length :=
          Nat.le_of_not_lt fun hlt => by simp [List.drop_eq_nil_of_le (Nat.le_of_lt hlt)] at hdropped
        match sorted, count, hcount with
        | first :: second :: rest, count + 2, _ =>
          by_cases hfirst : first.id = item.id
          · refine ⟨second, by simp, fun hsecond => ?_⟩
            simp [hfirst, hsecond] at hids'
          · exact ⟨first, by simp, hfirst⟩
        | [_], count + 2, _ => simp at hlength
        | [], count + 2, _ => simp at hlength
      rw [← List.take_append_drop count sorted, List.pairwise_append] at hsorted
      exact Nat.lt_of_le_of_lt (hsorted.2.2 between hbetween other hdropped)
        (htake between hbetween hid)
  · intro h
    refine ⟨?_, fun other hother => h other (hperm.mem_iff.mp (List.mem_of_mem_take hother))⟩
    have hmem := hperm.mem_iff.mpr hitem
    cases sorted with
    | nil => cases hmem
    | cons first rest =>
      obtain ⟨count, rfl⟩ := Nat.exists_eq_add_of_le' (Nat.le_of_succ_le hcount)
      rw [List.take_succ_cons]
      rcases List.mem_cons.mp hmem with rfl | hrest
      · exact List.mem_cons_self
      · have hne : first.id ≠ item.id := by
          intro heq
          exact (List.nodup_cons.mp hids').1 (List.mem_map.mpr ⟨item, hrest, heq.symm⟩)
        have hlt := h first (hperm.mem_iff.mp List.mem_cons_self) hne
        exact absurd hlt (Nat.not_lt.mpr (List.rel_of_pairwise_cons hsorted hrest))

theorem nodup_listing (n : Naming) (path : Path) (d : Disk) :
    (((d.versions.filter (listedFor n path)).map (listing path)).map (·.id)).Nodup := by
  rw [List.map_map]
  exact d.distinct.sublist (List.filter_sublist.map _)

theorem newestListed_iff :
    NewestListed n path d content ↔ NewestOf n path (· ∈ d.versions) content := by
  have hperm := n.byNewest_perm ((d.versions.filter (listedFor n path)).map (listing path))
  have hsorted := n.byNewest_sorted ((d.versions.filter (listedFor n path)).map (listing path))
  have hnewest : ∀ v ∈ d.versions, listedFor n path v = true →
      ((listing path v ∈ listBackupsForResolved n path d ∧
        ∀ other ∈ listBackupsForResolved n path d, other.id ≠ v.name → other.createdAt < v.time) ↔
      ∀ other ∈ d.versions, listedFor n path other = true → other ≠ v → other.time < v.time) := by
    intro v hv hlisted
    have hitem : listing path v ∈ (d.versions.filter (listedFor n path)).map (listing path) :=
      List.mem_map_of_mem (List.mem_filter.mpr ⟨hv, hlisted⟩)
    refine (newest_take_iff (nodup_listing n path d) hperm hsorted (by decide) hitem).trans ?_
    constructor
    · intro h other hother hlisted' hne
      refine h (listing path other) (List.mem_map_of_mem (List.mem_filter.mpr ⟨hother, hlisted'⟩)) ?_
      exact fun hname => hne (List.inj_on_of_nodup_map d.distinct hother hv hname)
    · intro h item hitem hid
      obtain ⟨other, hother, rfl⟩ := List.mem_map.mp hitem
      obtain ⟨hmem, hlisted'⟩ := List.mem_filter.mp hother
      exact h other hmem hlisted' fun heq => hid (congrArg Stored.name heq)
  constructor
  · rintro ⟨v, hv, hcontent, hlisted, hothers⟩
    have hmark : listedFor n path v = true := by
      obtain ⟨v', hv', heq⟩ := List.mem_map.mp (hperm.mem_iff.mp (List.mem_of_mem_take hlisted))
      obtain ⟨hmem, hmark⟩ := List.mem_filter.mp hv'
      have hname : v'.name = v.name := congrArg BackupVersion.id heq
      exact List.inj_on_of_nodup_map d.distinct hmem hv hname ▸ hmark
    exact ⟨v, hv, hcontent, hmark, (hnewest v hv hmark).mp ⟨hlisted, hothers⟩⟩
  · rintro ⟨v, hv, hcontent, hmark, hothers⟩
    exact ⟨v, hv, hcontent, (hnewest v hv hmark).mpr hothers⟩

/-! ## A whole edit -/

/-- No call on the way to a version fails. -/
structure CalmBackup (a : BackupAnswers) : Prop where
  openSource : a.openSource = none
  mkdirAll : a.mkdirAll = none
  create : a.create = none
  copy : a.copy = none
  close : a.close = none
  readDir : a.prune.readDir = none
  info : ∀ name, a.prune.info name = false
  remove : ∀ path, a.prune.remove path = false

structure CalmReplace (a : ReplaceAnswers) : Prop where
  createTemp : a.createTemp = none
  chmod : a.chmod = none
  write : a.write = none
  sync : a.sync = none
  close : a.close = none
  chown : a.chown = none
  rename : a.rename = none

/-- No call fails, but for those that the names decide. -/
structure Calm (a : WriteAnswers) : Prop where
  resolve : a.resolve = none
  backup : CalmBackup a.backup
  replace : CalmReplace a.replace

/-- The file has the new content, its mode and its owner, and its old content is the newest
version. -/
structure Written (n : Naming) (path : Path) (content : Bytes) (d d' : Disk) : Prop where
  content : d'.file.content = content
  mode : d'.file.mode = d.file.mode
  uid : d'.file.uid = d.file.uid
  gid : d'.file.gid = d.file.gid
  newest : NewestListed n path d' d.file.content

structure Right (n : Naming) (a : WriteAnswers) (path : Path) (content : Bytes) (d : Disk)
    (result : Except Err Unit × Disk) : Prop where
  succeeds : Calm a → result.1 = .ok () ∧ Written n path content d result.2
  error : ∀ err, result.1 = .error err → result.2.file = d.file ∧ result.2.temps = d.temps

/-- The path is not in a virtual directory, its version can be made and has the newest time of those
kept, and no special bit of the mode is lost. -/
structure Edits (n : Naming) (m : Manager) (a : BackupAnswers) (path : Path) (d : Disk) : Prop where
  writable : isVirtual path = false
  short : (baseOf path).utf8ByteSize ≤ 208
  fresh : versionName n a.now path ∉ d.versions.map (·.name)
  mode : d.file.mode.setuid = false ∧ d.file.mode.setgid = false ∧ d.file.mode.sticky = false
  newest : NewestOf n path (fun v => v ∈ d.versions ++ [made n a path d] ∧
    ¬ Displaced n m a.prune (d.versions ++ [made n a path d]) v) d.file.content

/-- The temporary file was made, a later step fails, and it cannot be removed. -/
structure Litters (n : Naming) (a : WriteAnswers) (path : Path) (d : Disk) : Prop where
  resolve : a.resolve = none
  writable : isVirtual path = false
  backed : Backed n a.backup path d
  failed : ¬ Replaces a.replace
  left : leavesTemp a.replace = true

theorem ends_resolveExisting {fails : Option Err} {Q : Unit → Disk → Prop} {E : Err → Disk → Prop} :
    Ends (resolveExisting fails) d Q E ↔
      (fails = none → Q () d) ∧ ∀ err, fails = some err → E err d := by
  have hcall : resolveExisting fails = call fails := by cases fails <;> rfl
  rw [hcall, ends_call]

theorem afterBackup_same (a : BackupAnswers) : (afterBackup n m a path d).file = d.file ∧
    (afterBackup n m a path d).temps = d.temps := by
  unfold afterBackup
  split
  · exact ⟨rfl, rfl⟩
  · exact ⟨pruned_same.1.trans withVersion_same.1, pruned_same.2.trans withVersion_same.2⟩

theorem ends_write (a : WriteAnswers) (hfile : d.file.content.length ≤ maxVersionSize)
    (hcontent : content.length ≤ maxEditableSize) :
    Ends (write n m a path content) d
      (fun _ d' => a.resolve = none ∧ isVirtual path = false ∧ Backed n a.backup path d ∧
        Replaces a.replace ∧ d' =
          { afterBackup n m a.backup path d with file := replacement a.replace content d.file })
      (fun _ d' => ¬ (a.resolve = none ∧ isVirtual path = false ∧ Backed n a.backup path d ∧
        Replaces a.replace) ∧ d'.file = d.file ∧ (d'.temps = d.temps ↔ ¬ Litters n a path d)) := by
  unfold write
  rw [ends_bind, ends_check]
  refine ⟨fun hlarge => absurd hcontent (Nat.not_le.mpr hlarge), fun _ => ?_⟩
  rw [ends_bind, ends_resolveExisting]
  refine ⟨fun hresolve => ?_, fun err herr => ?_⟩
  swap
  · have hnot : a.resolve ≠ none := fun h => by cases herr.symm.trans h
    exact ⟨fun h => hnot h.1, rfl, iff_of_true rfl fun h => hnot h.resolve⟩
  unfold ensureWritablePath
  rw [ends_bind, ends_check]
  refine ⟨fun hvirtual => ⟨fun h => ?_, rfl, iff_of_true rfl fun h => ?_⟩, fun hvirtual => ?_⟩
  · cases hvirtual.symm.trans h.2.1
  · cases hvirtual.symm.trans h.writable
  have hpath := Bool.not_eq_true _ ▸ hvirtual
  rw [ends_bind, ends_mapError]
  refine (ends_backup a.backup).mono (fun _ d' h => ?_) fun err d' h => ?_
  · obtain ⟨hbacked, rfl⟩ := h
    have hsame := @afterBackup_same n m d path a.backup
    refine (ends_replace a.replace content).mono (fun _ d' h => ?_) fun err d' h => ?_
    · obtain ⟨hreplaces, rfl⟩ := h
      exact ⟨hresolve, hpath, hbacked hfile, hreplaces, by rw [hsame.1]⟩
    · obtain ⟨hfails, rfl⟩ := h
      refine ⟨fun h => hfails h.2.2.2, hsame.1, ?_⟩
      rw [hsame.2]
      cases hleaves : leavesTemp a.replace with
      | true =>
        refine iff_of_false (by simp) fun hnot => hnot ?_
        exact ⟨hresolve, hpath, hbacked hfile, hfails, hleaves⟩
      | false => exact iff_of_true (by simp) fun h => by cases hleaves.symm.trans h.left
  · obtain ⟨-, hnot, hkeeps⟩ := h
    exact ⟨fun h => hnot h.2.2.1, hkeeps.file, iff_of_true hkeeps.temps fun h => hnot h.backed⟩

theorem mem_afterBackup_iff {a : BackupAnswers} {v : Stored}
    (hfile : d.file.content.length ≤ maxVersionSize)
    (hfresh : versionName n a.now path ∉ d.versions.map (·.name)) :
    v ∈ (afterBackup n m a path d).versions ↔ v ∈ d.versions ++ [made n a path d] ∧
      ¬ Displaced n m a.prune (d.versions ++ [made n a path d]) v := by
  rw [afterBackup, if_neg (Nat.not_lt.mpr hfile), mem_pruned_iff, versions_withVersion hfresh]

theorem special_bits_iff {mode : Mode} : (⟨mode.perm, false, false, false⟩ : Mode) = mode ↔
    mode.setuid = false ∧ mode.setgid = false ∧ mode.sticky = false := by
  cases mode
  simp [eq_comm]

/-- Where the edit goes through without a failure, it is right if nothing of `Edits` is amiss. -/
theorem written_iff {a : WriteAnswers} (hfile : d.file.content.length ≤ maxVersionSize)
    (hcalm : Calm a) (hwritable : isVirtual path = false) (hbacked : Backed n a.backup path d) :
    Written n path content d
      { afterBackup n m a.backup path d with file := replacement a.replace content d.file } ↔
      Edits n m a.backup path d := by
  have hshort : (baseOf path).utf8ByteSize ≤ 208 := by
    have hname := hbacked.short
    rw [utf8ByteSize_versionName] at hname
    omega
  have hkept : (· ∈ (afterBackup n m a.backup path d).versions) = fun v =>
      v ∈ d.versions ++ [made n a.backup path d] ∧
        ¬ Displaced n m a.backup.prune (d.versions ++ [made n a.backup path d]) v :=
    funext fun _ => propext (mem_afterBackup_iff hfile hbacked.fresh)
  have howner : replacement a.replace content d.file =
      ⟨content, ⟨d.file.mode.perm, false, false, false⟩, d.file.uid, d.file.gid⟩ := by
    simp [replacement, hcalm.replace.chown]
  constructor
  · intro h
    have hnewest := newestListed_iff.mp h.newest
    dsimp only at hnewest
    rw [hkept] at hnewest
    have hmode := h.mode
    dsimp only at hmode
    rw [howner] at hmode
    exact ⟨hwritable, hshort, hbacked.fresh, special_bits_iff.mp hmode, hnewest⟩
  · intro h
    refine ⟨rfl, ?_, by rw [howner], by rw [howner], newestListed_iff.mpr ?_⟩
    · dsimp only
      rw [howner]
      exact special_bits_iff.mpr h.mode
    · dsimp only
      rw [hkept]
      exact h.newest

theorem replaces_of_calm {a : ReplaceAnswers} (h : CalmReplace a) : Replaces a :=
  ⟨h.createTemp, h.chmod, h.write, h.sync, h.close, by rw [h.chown]; rfl, h.rename⟩

theorem backed_of_calm {a : BackupAnswers} (h : CalmBackup a)
    (hshort : (baseOf path).utf8ByteSize ≤ 208)
    (hfresh : versionName n a.now path ∉ d.versions.map (·.name)) : Backed n a path d := by
  refine ⟨h.openSource, h.mkdirAll, h.create, ?_, hfresh, h.copy, h.close⟩
  rw [utf8ByteSize_versionName]
  omega

/-- An edit of a file within the limits is right just in case nothing stands in the way of its version
and its mode if no call fails, and no temporary file stays if one does. -/
theorem write_iff {a : WriteAnswers} (hfile : d.file.content.length ≤ maxEditableSize)
    (hcontent : content.length ≤ maxEditableSize) :
    Right n a path content d (BackupFiles.write n m a path content d) ↔
      (Calm a → Edits n m a.backup path d) ∧ ¬ Litters n a path d := by
  have hversion : d.file.content.length ≤ maxVersionSize := Nat.le_trans hfile (by decide)
  obtain ⟨hok, herror⟩ := ends_def.mp (@ends_write n m d path content a hversion hcontent)
  generalize BackupFiles.write n m a path content d = result at hok herror ⊢
  obtain ⟨outcome, after⟩ := result
  cases outcome with
  | ok u =>
    obtain ⟨-, hwritable, hbacked, hreplaces, rfl⟩ := hok u rfl
    have hclean : ¬ Litters n a path d := fun h => h.failed hreplaces
    rw [and_iff_left hclean]
    constructor
    · intro h hcalm
      exact (written_iff hversion hcalm hwritable hbacked).mp (h.succeeds hcalm).2
    · intro h
      exact ⟨fun hcalm => ⟨rfl, (written_iff hversion hcalm hwritable hbacked).mpr (h hcalm)⟩, nofun⟩
  | error err =>
    obtain ⟨hnot, hsame, htemps⟩ := herror err rfl
    have hfails : Calm a → ¬ Edits n m a.backup path d := fun hcalm h => hnot
      ⟨hcalm.resolve, h.writable, backed_of_calm hcalm.backup h.short h.fresh,
        replaces_of_calm hcalm.replace⟩
    constructor
    · intro h
      refine ⟨fun hcalm => ?_, htemps.mp (h.error err rfl).2⟩
      cases (h.succeeds hcalm).1
    · rintro ⟨hcalm, hclean⟩
      exact ⟨fun h => absurd (hcalm h) (hfails h), fun _ _ => ⟨hsame, htemps.mpr hclean⟩⟩

theorem not_right_of_long {a : WriteAnswers} (hcalm : Calm a)
    (hfile : d.file.content.length ≤ maxVersionSize) (hcontent : content.length ≤ maxEditableSize)
    (hlong : 208 < (baseOf path).utf8ByteSize) :
    ¬ Right n a path content d (BackupFiles.write n m a path content d) := by
  intro hright
  obtain ⟨hok, -⟩ := ends_def.mp (@ends_write n m d path content a hfile hcontent)
  have hshort := (hok () (hright.succeeds hcalm).1).2.2.1.short
  rw [utf8ByteSize_versionName] at hshort
  omega

/-! ## Two edits -/

def calmBackup : BackupAnswers :=
  ⟨none, none, 1, 1, none, none, none, none, ⟨none, fun _ => false, fun _ => false⟩⟩

def calmReplace : ReplaceAnswers := ⟨none, (0, 0), none, none, none, none, none, none, none⟩

def calmWrite : WriteAnswers := ⟨none, calmBackup, calmReplace⟩

theorem calm_calmWrite : Calm calmWrite :=
  ⟨rfl, ⟨rfl, rfl, rfl, rfl, rfl, rfl, fun _ => rfl, fun _ => rfl⟩, ⟨rfl, rfl, rfl, rfl, rfl, rfl, rfl⟩⟩

/-- A small file without versions. -/
def fresh : Disk := ⟨[], List.nodup_nil, ⟨[97], ⟨0o644#9, false, false, false⟩, 0, 0⟩, 0⟩

def motd : Path := ["etc", "motd"]

theorem motd_edited : Right (Naming.single motd) calmWrite motd [98] fresh
    (BackupFiles.write (Naming.single motd) Manager.whole calmWrite motd [98] fresh) := by
  refine (write_iff (by decide) (by decide)).mpr ⟨fun _ => ?_, fun h => ?_⟩
  · refine ⟨by decide, by decide, List.not_mem_nil, ⟨rfl, rfl, rfl⟩, ?_⟩
    refine ⟨made (Naming.single motd) calmBackup motd fresh, ⟨List.mem_singleton_self _, ?_⟩, rfl,
      listedFor_of_name rfl, ?_⟩
    · exact not_displaced_of_room (by decide) (by decide)
    · rintro other ⟨hother, -⟩ - hne
      exact absurd (List.mem_singleton.mp hother) hne
  · exact h.failed (replaces_of_calm calm_calmWrite.replace)

/-- A name of 209 bytes. -/
def longName : Path := ["srv", String.ofList (List.replicate 209 'a')]

/-- A file of that name cannot be edited. -/
theorem long_name_not_edited : Calm calmWrite ∧ (baseOf longName).utf8ByteSize = 209 ∧
    ¬ Right (Naming.single longName) calmWrite longName [98] fresh
      (BackupFiles.write (Naming.single longName) Manager.whole calmWrite longName [98] fresh) := by
  have hsize : (baseOf longName).utf8ByteSize = 209 := by
    have hbase : baseOf longName = String.ofList (List.replicate 209 'a') := rfl
    rw [hbase, utf8ByteSize_ofList, List.length_replicate]
    intro c hc
    rw [List.eq_of_mem_replicate hc]
    decide
  exact ⟨calm_calmWrite, hsize, not_right_of_long calm_calmWrite (by decide) (by decide)
    (by rw [hsize]; decide)⟩

end LukePanel.Files.EditBackups
