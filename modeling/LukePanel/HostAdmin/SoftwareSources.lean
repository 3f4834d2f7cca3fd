import LukePanel.Library.Attempt
import LukePanel.Library.SlashPath
import Mathlib.Logic.Function.Basic

/-! # Software sources

`SetSoftwareSourceEnabled` and `AddSoftwareSource` of `internal/hostadmin/firewall.go`, on the files
of the host by their paths. -/
namespace LukePanel.HostAdmin.SoftwareSources
open LukePanel.Library LukePanel.Library.GoStrings
open LukePanel.Library.Attempt LukePanel.Library.Attempt.Prog

/-- `strings.TrimPrefix` of a string that has it. -/
def dropPrefix (s start : String) : String := String.ofList (s.toList.drop start.toList.length)

/-- `strings.TrimSuffix` of a string that has it. -/
def dropSuffix (s suffix : String) : String :=
  String.ofList (s.toList.take (s.toList.length - suffix.toList.length))

/-- The regular files. -/
abbrev Disk := String → Option String

/-- `os.ReadFile`. -/
def readFile (path : String) : Prog Disk String String := read fun disk =>
  match disk path with
  | some data => .ok data
  | none => .error ("open " ++ path ++ ": no such file or directory")

/-- `os.WriteFile`, which may fail. -/
def writeFile (write : Option String) (path data : String) : Prog Disk String Unit := do
  call write
  modify fun disk => Function.update disk path (some data)

/-- `os.Rename` of a file, which may fail. -/
def rename (fails : Option String) (path target : String) : Prog Disk String Unit := do
  let data ← readFile path
  call fails
  modify fun disk => Function.update (Function.update disk path none) target (some data)

/-! ## Switching a source -/

def sourcesList : String := "/etc/apt/sources.list"

def marker : String := "# lukepanel-disabled "

def disabledSuffix : String := ".lukepanel-disabled"

/-- What a line begins with. -/
def isEntry (trim : String) : Bool := hasPrefix trim "deb " || hasPrefix trim "deb-src "

/-- One line of `sources.list`, rewritten. -/
def rewriteLine (enabled : Bool) (line : String) : String :=
  let trim := trimSpace line
  let start := String.ofList (line.toList.takeWhile (· ∈ [' ', '\t']))
  let line := if enabled && hasPrefix trim marker then start ++ dropPrefix trim marker else line
  if !enabled && isEntry trim then start ++ marker ++ trim else line

def rewrite (enabled : Bool) (data : String) : String :=
  join '\n' ((split '\n' data).map (rewriteLine enabled))

def setSoftwareSourceEnabled (write renamed : Option String) (path : String) (enabled : Bool) :
    Prog Disk String String := do
  let path := (SlashPath.clean (trimSpace path)).text
  check (path ≠ sourcesList ∧ hasPrefix path "/etc/apt/sources.list.d/" = false) "软件源路径无效"
  check (containsAny path ['\x00', '\r', '\n'] = true) "软件源路径无效"
  if path = sourcesList then
    let data ← readFile path
    writeFile write path (rewrite enabled data)
    return path
  else if enabled then
    if hasSuffix path disabledSuffix = false then return path
    else
      rename renamed path (dropSuffix path disabledSuffix)
      return dropSuffix path disabledSuffix
  else if hasSuffix path disabledSuffix then return path
  else
    rename renamed path (path ++ disabledSuffix)
    return path ++ disabledSuffix

/-! ## Adding a source -/

structure SoftwareSource where
  path : String
  name : String
  enabled : Bool
  format : String
  content : String
  deriving DecidableEq

/-- The expression `^[A-Za-z0-9][A-Za-z0-9_.-]{0,63}$`. -/
def validName (s : String) : Bool :=
  match s.toList with
  | [] => false
  | c :: rest => c.isAlphanum && decide (rest.length ≤ 63) &&
      rest.all fun c => c.isAlphanum || c ∈ ['_', '.', '-']

/-- The loop over the lines of a text in the one-line format. -/
def checkLines (valid : Bool) : List String → Except String Unit
  | [] => if valid then .ok () else .error "没有有效软件源条目"
  | line :: rest =>
    let line := trimSpace line
    if line = "" ∨ hasPrefix line "#" = true then checkLines valid rest
    else if isEntry line = false then .error "传统软件源每行必须以 deb 或 deb-src 开头"
    else if contains line "https://" = false then .error "新增软件源必须使用 HTTPS"
    else checkLines true rest

/-- The text is taken for the deb822 format. -/
def isDeb822 (content : String) : Bool := contains content "Types:" && contains content "URIs:"

def addSoftwareSource (write : Option String) (name content : String) :
    Prog Disk String SoftwareSource := do
  let name := trimSpace name
  let content := trimSpace content
  check (validName name = false) "软件源名称无效"
  check (content.utf8ByteSize < 5 ∨ 1048576 < content.utf8ByteSize ∨ '\x00' ∈ content.toList)
    "软件源内容无效"
  read fun _ => if isDeb822 content then .ok () else checkLines false (split '\n' content)
  let file := name ++ if isDeb822 content then ".sources" else ".list"
  let path := (SlashPath.clean ("/etc/apt/sources.list.d/" ++ file)).text
  let disk ← get
  check ((disk path).isSome = true) "同名软件源已存在"
  writeFile write path (content ++ "\n")
  return ⟨path, (SlashPath.clean path).base, true, if isDeb822 content then "deb822" else "list",
    content ++ "\n"⟩

end LukePanel.HostAdmin.SoftwareSources
