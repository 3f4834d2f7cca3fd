import LukePanel.Library.Directories

/-! # The paths of the file manager

`Manager` of `internal/files/manager.go`: which paths it accepts and what they are resolved to. A
path is its elements once it is cleaned; names contain no slash, so that `path` begins with
`root + "/"` or is `root` exactly when the elements of `root` are the first of `path`. -/
namespace LukePanel.Files.Paths
open LukePanel.Library.Attempt LukePanel.Library.FileSystem LukePanel.Library.Syscalls
open LukePanel.Library LukePanel.Library.SlashPath

/-- `cwd` is the working directory of the process. All paths are cleaned. -/
structure Manager where
  roots : List Path
  dataDir : Path
  cwd : Path
  cleaned : ∀ path ∈ dataDir :: cwd :: roots, ∀ part ∈ path, FileName part

/-- A manager of the whole file system. -/
def Manager.whole : Manager where
  roots := [[]]
  dataDir := ["var", "lib", "lukepanel"]
  cwd := []
  cleaned := by decide +kernel

/-- A path as it is written. -/
def pathString (path : Path) : String := "/" ++ GoStrings.join '/' path

def virtualRoots : List String := ["proc", "sys", "dev", "run"]

/-- `IsVirtualPath` -/
def isVirtual (path : Path) : Bool := path.head?.any (· ∈ virtualRoots)

/-- `ensureWritablePath` -/
def ensureWritable (path : Path) : Sys Unit :=
  Prog.check (isVirtual path = true) (.msg "虚拟系统目录只允许浏览，不能执行普通文件写入")

namespace Manager

variable (m : Manager) (w : World)

/-- `filepath.Abs`, cleaned. -/
def abs (path : String) : Path :=
  let p := clean path
  if p.rooted then p.parts else ((GoStrings.split '/' path).foldl (push true) m.cwd.reverse).reverse

def allowed (path : Path) : Bool := m.roots.any (·.isPrefixOf path)

def isManagedRoot (path : Path) : Bool := path ∈ m.roots

/-- `resolveExisting` on a cleaned path. -/
def resolveExisting (path : Path) (wantDir : Bool) : Sys (Path × Entry) := do
  Prog.check (m.allowed path = false) (.msg "path is outside allowed roots")
  let resolved ← evalSymlinks w path
  Prog.check (m.allowed resolved = false) (.msg "symlink target is outside allowed roots")
  let info ← stat w resolved
  Prog.check (wantDir ≠ info.isDir)
    (.msg (if wantDir then "path is not a directory" else "path is not a file"))
  return (resolved, info)

def resolveAny (path : Path) : Sys (Path × Entry) := do
  Prog.check (m.allowed path = false) (.msg "path is outside allowed roots")
  let resolved ← evalSymlinks w path
  Prog.check (m.allowed resolved = false) (.msg "symlink target is outside allowed roots")
  let info ← lstat w resolved
  Prog.check (info.isLink = true) (.msg "不支持直接操作符号链接")
  return (resolved, info)

/-- `filepath.Join(parent, filepath.Base(path))` -/
def rebased (parent path : Path) : Path := parent ++ path.getLast?.toList

def resolveNew (path : Path) : Sys Path := do
  ensureWritable path
  Prog.check (m.allowed path = false) (.msg "path is outside allowed roots")
  let (resolvedParent, info) ← m.resolveExisting w path.dropLast true
  Prog.check (info.isDir = false) (.msg "parent is not a directory")
  let resolved := rebased resolvedParent path
  Prog.check (m.allowed resolved = false) (.msg "path is outside allowed roots")
  return resolved

def mkdir (path : String) : Sys Unit := do
  let resolved ← m.resolveNew w (m.abs path)
  Library.Syscalls.mkdir w resolved 0o750#9

/-! ## What the paths are resolved to -/

section

variable {m} {w} {h : Host} {path : Path}

open Prog

theorem abs_pathString (hpath : ∀ part ∈ path, FileName part) : m.abs (pathString path) = path := by
  rw [abs, pathString, clean_root_join hpath]
  rfl

/-- What `filepath.EvalSymlinks` found is there and no link. -/
theorem stat_resolved {resolved : Loc} (hwalk : h.fs.walk 256 [] path = .ok resolved) :
    h.fs.follow resolved = .ok resolved ∧
      ∃ e, h.fs.entry resolved = some e ∧ e.isLink = false := by
  obtain ⟨e, he, hlink⟩ := Fs.walk_ok h.fs.root hwalk
  exact ⟨Fs.follow_entry he hlink, e, he, hlink⟩

theorem ends_resolveExisting {wantDir : Bool} :
    Ends (m.resolveExisting w path wantDir) h
      (fun r h' => h.Still h' ∧ m.allowed path = true ∧ h.fs.walk 256 [] path = .ok r.1 ∧
        m.allowed r.1 = true ∧ h.fs.entry r.1 = some r.2 ∧ r.2.isDir = wantDir)
      fun _ h' => h.Still h' := by
  rw [resolveExisting, ends_bind, ends_check]
  refine ⟨fun _ => ⟨rfl, rfl⟩, fun hallowed => ?_⟩
  rw [ends_bind]
  refine ends_query (fun _ _ => ⟨rfl, rfl⟩) fun resolved _ hwalk => ?_
  rw [ends_bind, ends_check]
  refine ⟨fun _ => ⟨rfl, rfl⟩, fun hresolved => ?_⟩
  rw [ends_bind]
  refine ends_query (fun _ _ => ⟨rfl, rfl⟩) fun info _ hinfo => ?_
  rw [ends_bind, ends_check]
  refine ⟨fun _ => ⟨rfl, rfl⟩, fun hkind => ends_pure.mpr ?_⟩
  obtain ⟨hfollow, -⟩ := stat_resolved hwalk
  obtain ⟨l, hl, hentry⟩ := bind_eq_ok hinfo
  obtain rfl : resolved = l := Except.ok.inj (hfollow.symm.trans hl)
  exact ⟨⟨rfl, rfl⟩, Bool.not_eq_false _ ▸ hallowed, hwalk, Bool.not_eq_false _ ▸ hresolved,
    entryAt_eq_ok hentry, (not_not.mp hkind).symm⟩

theorem resolveExisting_succeeds {resolved : Loc} {info : Entry}
    (hfails : w.fails (.evalSymlinks path) = none ∧ w.fails (.stat resolved) = none)
    (hallowed : m.allowed path = true) (hwalk : h.fs.walk 256 [] path = .ok resolved)
    (hresolved : m.allowed resolved = true) (hinfo : h.fs.entry resolved = some info) :
    Ends (m.resolveExisting w path info.isDir) h
      (fun r h' => h.Still h' ∧ r = (resolved, info)) fun _ _ => False := by
  obtain ⟨hfollow, -⟩ := stat_resolved hwalk
  rw [resolveExisting, ends_bind, ends_check]
  refine ⟨fun hnot => absurd hallowed (by rw [hnot]; exact nofun), fun _ => ?_⟩
  rw [ends_bind]
  refine ends_query_ok hfails.1 hwalk ?_
  rw [ends_bind, ends_check]
  refine ⟨fun hnot => absurd hresolved (by rw [hnot]; exact nofun), fun _ => ?_⟩
  have hstat : (h.fs.follow resolved >>= entryAt h.fs) = .ok info := by
    rw [hfollow]
    exact entryAt_of_entry hinfo
  rw [ends_bind]
  refine ends_query_ok hfails.2 hstat ?_
  rw [ends_bind, ends_check]
  exact ⟨fun hne => absurd rfl hne, fun _ => ends_pure.mpr ⟨⟨rfl, rfl⟩, rfl⟩⟩

end

end Manager

end LukePanel.Files.Paths
