import LukePanel.Files.Paths

/-! # Copying and moving

`copyPath`, `copyFile`, `moveInternal`, `Copy` and `Move` of `internal/files/manager.go`. -/
namespace LukePanel.Files.Copying
open LukePanel.Library.Attempt LukePanel.Library.FileSystem LukePanel.Library.Syscalls
open LukePanel.Files.Paths

variable (w : World)

/-- The attributes in an `os.FileInfo`. -/
def attrOf : Entry → Attr
  | .dir attr | .file attr _ | .special attr _ => attr
  | .link _ => ⟨⟨0o777#9, false, false, false⟩, 0, 0, 0⟩

/-- What is kept of the owner and the times, as far as the calls work. -/
def copyFile (source destination : Path) (info : Entry) : Sys Unit := do
  let src ← openRead w source
  openNew w destination (attrOf info).mode.perm
  Prog.onFail (remove w destination) (do
    let _ ← copyTo w destination src none
    sync w destination
    close w destination)
  Prog.dropped (chown w destination (attrOf info).uid (attrOf info).gid)
  Prog.dropped (chtimes w destination (attrOf info).mtime)

/-- The entries of a directory are copied one after the other. -/
def copyEntries (copy : Path → Path → Entry → Sys Unit) (source destination : Path) :
    List String → Sys Unit
  | [] => return ()
  | name :: rest => do
    Prog.onFail (removeAll w destination) (do
      let childInfo ← lstat w (source ++ [name])
      Prog.check (childInfo.isLink = true)
        (.msg ("目录包含符号链接：" ++ pathString (source ++ [name])))
      copy (source ++ [name]) (destination ++ [name]) childInfo)
    copyEntries copy source destination rest

/-- `copyPath`, with a bound on the depth: the kernel takes no path of 4096 bytes. -/
def copyPath : Nat → Path → Path → Entry → Sys Unit
  | 0, _, _, _ => Prog.fail (.sys .ENAMETOOLONG)
  | depth + 1, source, destination, info => do
    Prog.check (info.isLink = true) (.msg "不支持复制符号链接")
    if info.isDir then do
      mkdir w destination (attrOf info).mode.perm
      let entries ← Prog.onFail (remove w destination) (readDir w source)
      copyEntries w (copyPath depth) source destination entries
      Prog.dropped (chown w destination (attrOf info).uid (attrOf info).gid)
      chtimes w destination (attrOf info).mtime
    else copyFile w source destination info

def maxDepth : Nat := 4096

/-- `moveInternal`, whose steps are also the last ones of `Move`. -/
def moveInternal (source destination : Path) (info : Entry) : Sys Unit := do
  match ← Prog.result (rename w source destination) with
  | .ok _ => return ()
  | .error err =>
    if err.is .EXDEV then do
      copyPath w maxDepth source destination info
      if info.isDir then removeAll w source else remove w source
    else Prog.fail err

/-- The destination of `Copy` and `Move` is checked not to be there. -/
def mustBeAbsent (path : Path) (message : String) : Sys Unit := do
  match ← Prog.result (lstat w path) with
  | .ok _ => Prog.fail (.msg message)
  | .error err => if err.isNotExist then return () else Prog.fail err

namespace Manager

variable (m : Manager)

def copy (source destination : String) : Sys Unit := do
  let (src, info) ← m.resolveAny w (m.abs source)
  Prog.check (m.isManagedRoot src = true) (.msg "不允许直接复制授权根目录")
  let dst ← m.resolveNew w (m.abs destination)
  Prog.check (src = dst) (.msg "源路径和目标路径相同")
  Prog.check (info.isDir = true ∧ src <+: dst) (.msg "不能把文件夹复制到自身内部")
  mustBeAbsent w dst "目标路径已存在"
  copyPath w maxDepth src dst info

def move (source destination : String) : Sys Unit := do
  let (src, info) ← m.resolveAny w (m.abs source)
  Prog.check (m.isManagedRoot src = true) (.msg "不允许移动文件系统根目录")
  ensureWritable src
  let dst ← m.resolveNew w (m.abs destination)
  if src = dst then return ()
  else do
    Prog.check (info.isDir = true ∧ src <+: dst) (.msg "不能把文件夹移动到自身内部")
    mustBeAbsent w dst "目标路径已存在"
    moveInternal w src dst info

end Manager

end LukePanel.Files.Copying
