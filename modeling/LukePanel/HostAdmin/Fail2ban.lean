import LukePanel.Library.Attempt
import LukePanel.Library.IpNetworks
import Mathlib.Data.List.Dedup
import Mathlib.Data.List.Sort
import Mathlib.Data.String.Basic

/-! # The ignore list of Fail2ban

`UpdateFail2BanIgnore` of `internal/hostadmin/fail2ban.go`, on the configuration of the panel, and the
configuration that `InstallFail2Ban` of `internal/hostadmin/host.go` writes. -/
namespace LukePanel.HostAdmin.Fail2ban
open LukePanel.Library.GoStrings LukePanel.Library.NetAddress
open LukePanel.Library.Attempt LukePanel.Library.Attempt.Prog

/-! ## Entries -/

def normalizeIPOrCIDR (value : String) : Except String String :=
  let value := trimSpace value
  match parseIP value with
  | some ip => .ok ip.string
  | none =>
    match parseCIDR value with
    | some (_, network) => .ok network.string
    | none => .error "请输入有效 IP 或 CIDR"

def cleanIPEntries (values : List String) : List String :=
  (((values.map trimSpace).filter (· ≠ "")).dedup).insertionSort (· ≤ ·)

def ipEntryContains (entry ipValue : String) : Bool :=
  match parseIP (trimBrackets (trimSpace ipValue)) with
  | none => false
  | some ip =>
    match parseIP entry with
    | some parsed => parsed = ip
    | none => (parseCIDR entry).any (·.2.contains ip)

/-- What an update never removes. -/
def required : List String := ["127.0.0.1/8", "::1", "10.0.0.0/8", "172.16.0.0/12", "192.168.0.0/16"]

/-! ## Lines -/

def isIgnoreLine (line : String) : Bool := "ignoreip".toList.isPrefixOf (trimSpace line).toList

/-- What `strings.Cut` finds behind the first `=`. -/
def afterEquals (line : String) : String := String.ofList (line.toList.dropWhile (· ≠ '=')).tail

def replaceFirst (p : String → Bool) (new : String) : List String → List String
  | [] => []
  | line :: rest => if p line then new :: rest else line :: replaceFirst p new rest

/-- The set of entries, in order. -/
def updatedEntries (action entry : String) (entries : List String) : List String :=
  let set := if action = "add" then entries ++ [entry] else entries.filter (· ≠ entry)
  ((set ++ required).dedup).insertionSort (· ≤ ·)

def ignoreLine (entries : List String) : String := "ignoreip = " ++ join ' ' entries

/-! ## The update -/

/-- What the calls answer: the error of a write with what it leaves of the file, the outputs of
commands that fail, and what is left when the original cannot be written back. -/
structure Answers where
  write : Option (String × Option String)
  test : Option String
  restart : Option String
  rollback : Option (Option String)

def readConfig : Prog (Option String) String String := read fun file =>
  match file with
  | some original => .ok original
  | none => .error "请先从安全中心安装并启用 Fail2ban"

def writeConfig (write : Option (String × Option String)) (data : String) :
    Prog (Option String) String Unit :=
  match write with
  | none => modify fun _ => some data
  | some (err, left) => do
    modify fun _ => left
    fail err

def rollback (answer : Option (Option String)) (original : String) : Prog (Option String) String Unit :=
  modify fun _ => answer.getD (some original)

def restartWith (a : Answers) (original : String) : Prog (Option String) String Unit :=
  match a.test, a.restart with
  | some output, _ => do
    rollback a.rollback original
    fail ("Fail2ban 配置校验失败，已恢复: " ++ trimSpace output)
  | none, some output => do
    rollback a.rollback original
    fail ("Fail2ban 重启失败，已恢复: " ++ trimSpace output)
  | none, none => pure ()

def updateFail2BanIgnore (a : Answers) (entry action protectedIP : String) :
    Prog (Option String) String Unit := do
  let entry ← read fun _ => normalizeIPOrCIDR entry
  check (action ≠ "add" ∧ action ≠ "remove") "不支持的白名单操作"
  check (action = "remove" ∧ ipEntryContains entry protectedIP = true)
    "不能移除当前访问 IP；请先从另一个受信任网络登录"
  let original ← readConfig
  let lines := split '\n' original
  let line ← read fun _ =>
    match lines.find? isIgnoreLine with
    | some line => .ok line
    | none => .error "LukePanel Fail2ban 配置缺少 ignoreip"
  let entries := updatedEntries action entry (cleanIPEntries (fields (afterEquals line)))
  writeConfig a.write (join '\n' (replaceFirst isIgnoreLine (ignoreLine entries) lines))
  restartWith a original

/-! ## The installer -/

def addIgnoreIP (ignore : List String) (value : String) : List String :=
  match parseIP (trimBrackets (trimSpace value)) with
  | none => ignore
  | some ip =>
    let entry := ip.string ++ if ip.to4.isSome then "/32" else "/128"
    if ip.isLoopback ∨ entry ∈ ignore then ignore else ignore ++ [entry]

/-- What `InstallFail2Ban` writes for the client and the peers of `sshd`. -/
def installContent (currentIP : String) (activeSSHClientIPs : List String) : String :=
  "# Managed by LukePanel\n[sshd]\nenabled = true\nbackend = systemd\nmaxretry = 5\nfindtime = 10m\n" ++
    "bantime = 1h\n" ++ ignoreLine ((currentIP :: activeSSHClientIPs).foldl addIgnoreIP required) ++ "\n"

end LukePanel.HostAdmin.Fail2ban
