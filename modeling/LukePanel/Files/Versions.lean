import LukePanel.Files.Copying
import Mathlib.Algebra.GroupWithZero.Nat

/-! # Versions of files

`backup`, `pruneDirectory` and `Write` of `internal/files/manager.go`, and `ListBackups`,
`BackupDiff` and `RestoreBackup` of `versions.go`. All versions are in one directory; their names
are a time, the hash of the path and the name of the file. -/
namespace LukePanel.Files.Versions
open LukePanel.Library.Attempt LukePanel.Library.FileSystem LukePanel.Library.Syscalls
open LukePanel.Library.GoStrings LukePanel.Library.SlashPath LukePanel.Files.Paths
open LukePanel.Files.Copying

/-- A file that may be pruned. -/
structure Candidate where
  path : Path
  size : Nat
  time : Nat
  deriving DecidableEq

structure BackupVersion where
  id : String
  path : Path
  name : String
  size : Nat
  createdAt : Nat
  deriving DecidableEq

/-- What the standard library makes of times and hashes, and how it sorts: a time of
nanoseconds is written in 25 characters without a hyphen, eight bytes in 16 hexadecimal digits, and
equal times come in any order. -/
structure Naming where
  stamp : Nat → String
  stamp_length : ∀ t, (stamp t).toList.length = 25
  stamp_chars : ∀ t, (stamp t).toList.all (fun c => c.isDigit || c = 'T' || c = '.') = true
  pathHash : Path → String
  hash_length : ∀ p, (pathHash p).toList.length = 16
  hash_chars : ∀ p, (pathHash p).toList.all ("0123456789abcdef".toList.contains ·) = true
  byAge : List Candidate → List Candidate
  byAge_perm : ∀ l, (byAge l).Perm l
  byAge_sorted : ∀ l, (byAge l).Pairwise fun a b => a.time ≤ b.time
  byNewest : List BackupVersion → List BackupVersion
  byNewest_perm : ∀ l, (byNewest l).Perm l
  byNewest_sorted : ∀ l, (byNewest l).Pairwise fun a b => b.createdAt ≤ a.createdAt

/-- Names for stores with versions of one time, in which the hash of one path differs from those of
all others. -/
def Naming.single (path : Path) : Naming where
  stamp _ := "20260101T000000.000000000"
  stamp_length _ := by decide +kernel
  stamp_chars _ := by decide +kernel
  pathHash p := if p = path then "0123456789abcdef" else "fedcba9876543210"
  hash_length p := by split <;> decide +kernel
  hash_chars p := by split <;> decide +kernel
  byAge l := l.insertionSort fun a b => a.time ≤ b.time
  byAge_perm l := List.perm_insertionSort _ l
  byAge_sorted l :=
    haveI : Std.Total fun a b : Candidate => a.time ≤ b.time := ⟨fun a b => Nat.le_total a.time b.time⟩
    haveI : IsTrans Candidate fun a b => a.time ≤ b.time := ⟨fun _ _ _ => Nat.le_trans⟩
    List.pairwise_insertionSort _ l
  byNewest l := l.insertionSort fun a b => b.createdAt ≤ a.createdAt
  byNewest_perm l := List.perm_insertionSort _ l
  byNewest_sorted l :=
    haveI : Std.Total fun a b : BackupVersion => b.createdAt ≤ a.createdAt :=
      ⟨fun a b => Nat.le_total b.createdAt a.createdAt⟩
    haveI : IsTrans BackupVersion fun a b => b.createdAt ≤ a.createdAt :=
      ⟨fun _ _ _ hab hbc => Nat.le_trans hbc hab⟩
    List.pairwise_insertionSort _ l

theorem Naming.single_pathHash_ne {path other : Path} (hne : other ≠ path) :
    (Naming.single path).pathHash other ≠ (Naming.single path).pathHash path := by
  change (if other = path then _ else _) ≠ if path = path then _ else _
  rw [if_neg hne, if_pos rfl]
  decide

/-- `info.Size()`; that of a directory is not read. -/
def sizeIn : Entry → Nat
  | .file _ content => content.length
  | .link target => target.utf8ByteSize
  | _ => 0

/-- `filepath.Base` of a path. -/
def baseOf (path : Path) : String := path.getLast?.getD "/"

/-- `filepath.Base` of a text. -/
def base (s : String) : String :=
  if s = "" then "." else ((split '/' s).filter (· ≠ "")).getLast?.getD "/"

def maxEditableSize : Nat := 2097152

def maxVersionSize : Nat := 20971520

def maxStoredBytes : Nat := 524288000

def maxStoredFiles : Nat := 500

def maxListed : Nat := 50

variable (w : World) (n : Naming) (m : Manager)

/-! ## Pruning -/

/-- The files of a directory. -/
def candidates (dir : Path) : List String → Sys (List Candidate)
  | [] => return []
  | name :: rest => do
    match ← Prog.result (lstat w (dir ++ [name])) with
    | .ok info =>
      let others ← candidates dir rest
      return if info.isDir then others
        else ⟨dir ++ [name], sizeIn info, (attrOf info).mtime⟩ :: others
    | .error _ => candidates dir rest

/-- The oldest files are removed until the limits are kept. -/
def removeOldest (maxBytes maxFiles : Nat) : List Candidate → Nat → Sys Unit
  | [], _ => return ()
  | item :: rest, total => do
    if maxFiles < rest.length + 1 ∨ maxBytes < total then do
      match ← Prog.result (remove w item.path) with
      | .ok _ => removeOldest maxBytes maxFiles rest (total - item.size)
      | .error err =>
        removeOldest maxBytes maxFiles rest (if err.isNotExist then total - item.size else total)
    else return ()

def pruneDirectory (dir : Path) (maxBytes maxFiles : Nat) : Sys Unit := do
  let entries ← readDir w dir
  let files ← candidates w dir entries
  removeOldest w maxBytes maxFiles (n.byAge files) ((files.map Candidate.size).sum)

/-! ## Versions -/

def versionsDir : Path := m.dataDir ++ ["backups", "files"]

def versionName (time : Nat) (path : Path) : String :=
  n.stamp time ++ "-" ++ n.pathHash path ++ "-" ++ baseOf path ++ ".bak"

def readClock : Sys Nat := fun h => (.ok (w.clock h.ticks), { h with ticks := h.ticks + 1 })

def backup (path : Path) (info : Entry) : Sys Unit := do
  if maxVersionSize < sizeIn info then return ()
  else do
    let src ← openRead w path
    mkdirAll w (versionsDir m) 0o750#9
    let time ← readClock w
    let dst := versionsDir m ++ [versionName n time path]
    openNew w dst 0o600#9
    let _ ← Prog.onFail (remove w dst) (copyTo w dst src none)
    close w dst
    Prog.dropped (pruneDirectory w n (versionsDir m) maxStoredBytes maxStoredFiles)

/-- `"-" + backupPrefix(resolved) + "-"` -/
def mark (resolved : Path) : String := "-" ++ n.pathHash resolved ++ "-"

/-- The versions among the entries of the directory. -/
def listed (resolved : Path) : List String → Sys (List BackupVersion)
  | [] => return []
  | name :: rest => do
    if contains name (mark n resolved) = false ∨ hasSuffix name ".bak" = false then
      listed resolved rest
    else do
      match ← Prog.result (lstat w (versionsDir m ++ [name])) with
      | .ok info =>
        let others ← listed resolved rest
        return if info.isDir then others
          else ⟨name, resolved, baseOf resolved, sizeIn info, (attrOf info).mtime⟩ :: others
      | .error _ => listed resolved rest

def listBackupsForResolved (resolved : Path) : Sys (List BackupVersion) := do
  match ← Prog.result (readDir w (versionsDir m)) with
  | .error err => if err.isNotExist then return [] else Prog.fail err
  | .ok entries => do
    let out ← listed w n m resolved entries
    return (n.byNewest out).take maxListed

def resolveBackup (resolved : Path) (id : String) : Sys (Path × Entry) := do
  Prog.check (id = "" ∨ base id ≠ id ∨ id.toList.any (· ∈ ['/', '\\']) = true ∨
    hasSuffix id ".bak" = false) (.msg "备份版本编号无效")
  Prog.check (contains id (mark n resolved) = false) (.msg "备份版本与当前文件不匹配")
  let path := versionsDir m ++ [id]
  let info ← stat w path
  match info with
  | .file _ _ => return (path, info)
  | _ => Prog.fail (.msg "备份版本格式异常")

/-- The last steps of `Write` and `RestoreBackup`: a file that was written gets the owner of the
one it replaces. -/
def replaceWith (tmp resolved : Path) (info : Entry) : Sys Unit := do
  sync w tmp
  close w tmp
  let owned ← Prog.result (chown w tmp (attrOf info).uid (attrOf info).gid)
  match owned with
  | .ok _ => pure ()
  | .error err => Prog.check (err.is .EPERM = false) err
  rename w tmp resolved

/-- `info.Mode().Perm()` -/
def permOf (info : Entry) : Mode := ⟨(attrOf info).mode.perm, false, false, false⟩

def isBinary (data : Bytes) : Bool := (data.take 8192).contains 0

end LukePanel.Files.Versions

namespace LukePanel.Files.Paths.Manager
open LukePanel.Library.Attempt LukePanel.Library.FileSystem LukePanel.Library.Syscalls
open LukePanel.Files.Paths LukePanel.Files.Copying LukePanel.Files.Versions

variable (m : Manager) (w : World) (n : Naming)

def write (path : String) (content : Bytes) : Sys Unit := do
  Prog.check (maxEditableSize < content.length) (.msg "文件内容超过 2MB")
  let (resolved, info) ← m.resolveExisting w (m.abs path) false
  ensureWritable resolved
  Prog.mapError (.wrap "创建备份失败: ") (backup w n m resolved info)
  let tmp ← createTemp w resolved.dropLast ".lukepanel-" ".tmp"
  Prog.deferring (remove w tmp) (do
    chmod w tmp (permOf info)
    Library.Syscalls.write w tmp content
    replaceWith w tmp resolved info)

def listBackups (path : String) : Sys (List BackupVersion) := do
  let (resolved, _) ← m.resolveExisting w (m.abs path) false
  listBackupsForResolved w n m resolved

/-- `BackupDiff` up to the two texts it compares: the version and the file. -/
def backupDiff (path id : String) : Sys (Bytes × Bytes) := do
  let (resolved, info) ← m.resolveExisting w (m.abs path) false
  Prog.check (maxEditableSize < sizeIn info) (.msg "文件超过 2MB，无法在线对比")
  let (backupPath, backupInfo) ← resolveBackup w n m resolved id
  Prog.check (maxEditableSize < sizeIn backupInfo) (.msg "备份文件超过 2MB，无法在线对比")
  let current ← openRead w resolved
  let current ← Prog.read fun h => (contentAt w h.fs current).mapError Err.sys
  let previous ← openRead w backupPath
  let previous ← Prog.read fun h => (contentAt w h.fs previous).mapError Err.sys
  Prog.check (isBinary current = true ∨ isBinary previous = true) (.msg "二进制文件无法在线对比")
  return (previous, current)

def restoreBackup (path id : String) : Sys Unit := do
  let (resolved, info) ← m.resolveExisting w (m.abs path) false
  ensureWritable resolved
  let (backupPath, backupInfo) ← resolveBackup w n m resolved id
  Prog.check (maxVersionSize < sizeIn backupInfo) (.msg "备份文件超过 20MB，无法在线恢复")
  Prog.mapError (.wrap "恢复前创建当前版本备份失败: ") (backup w n m resolved info)
  let src ← openRead w backupPath
  let tmp ← createTemp w resolved.dropLast ".lukepanel-restore-" ".tmp"
  Prog.deferring (remove w tmp) (do
    chmod w tmp (permOf info)
    let written ← copyTo w tmp src (some (maxVersionSize + 1))
    Prog.check (maxVersionSize < written) (.msg "备份文件超过 20MB，无法在线恢复")
    replaceWith w tmp resolved info)

end LukePanel.Files.Paths.Manager
