import LukePanel.Library.Attempt
import LukePanel.Library.GoStrings

/-! # Task requests and their units

`validateRequest`, `renderUnits` and `onCalendar` of `internal/tasks/manager.go`, and the task that
`Create` makes of a request. -/
namespace LukePanel.Tasks.Units
open LukePanel.Library.Attempt LukePanel.Library.GoStrings

structure CreateRequest where
  name : String
  type : String
  target : String
  frequency : String
  hour : ℤ
  minute : ℤ
  weekday : ℤ
deriving DecidableEq

structure Task where
  id : String
  name : String
  type : String
  target : String
  frequency : String
  hour : ℤ
  minute : ℤ
  weekday : ℤ
  enabled : Bool
  createdAt : String
deriving DecidableEq

/-- The expression `^[A-Za-z0-9][A-Za-z0-9_.@-]{0,127}$`. -/
def safeName (s : String) : Bool :=
  match s.toList with
  | [] => false
  | c :: rest => c.isAlphanum && decide (rest.length ≤ 127) &&
      rest.all fun c => c.isAlphanum || c ∈ ['_', '.', '@', '-']

/-- What `exec.LookPath("docker")` answers. -/
abbrev LookPath := Except String String

/-- The switch on the type of the task. -/
def checkType (docker : LookPath) (req : CreateRequest) : Except String CreateRequest :=
  if req.type = "service-restart" then
    if safeName req.target = false ∨ ".service".toList.isSuffixOf req.target.toList = false then
      .error "systemd 服务名称无效"
    else .ok req
  else if req.type = "docker-restart" then
    if safeName req.target = false then .error "Docker 容器名称无效"
    else if docker.isOk = false then .error "服务器未安装 docker 命令"
    else .ok req
  else if req.type = "docker-cleanup-safe" then
    if docker.isOk = false then .error "服务器未安装 docker 命令"
    else .ok { req with target := "safe" }
  else if req.type = "panel-backup" then .ok { req with target := "scheduled-backups" }
  else .error "任务类型无效"

def validateRequest (docker : LookPath) (req : CreateRequest) : Except String CreateRequest := do
  let req := { req with
    name := trimSpace req.name
    type := trimSpace req.type
    target := trimSpace req.target
    frequency := trimSpace req.frequency }
  if req.name = "" ∨ 80 < req.name.utf8ByteSize ∨ containsAny req.name ['\r', '\n'] = true then
    throw "任务名称必须是 1-80 个字符"
  if req.minute < 0 ∨ 59 < req.minute ∨ req.hour < 0 ∨ 23 < req.hour ∨ req.weekday < 0 ∨
      6 < req.weekday then
    throw "执行时间无效"
  if req.frequency ≠ "hourly" ∧ req.frequency ≠ "daily" ∧ req.frequency ≠ "weekly" then
    throw "执行频率无效"
  checkType docker req

def serviceUnit (id : String) : String := "lukepanel-task-" ++ id ++ ".service"

def timerUnit (id : String) : String := "lukepanel-task-" ++ id ++ ".timer"

/-! ## Texts -/

/-- `strings.ReplaceAll` of one character. -/
def replaceAll (old : Char) (new : List Char) (s : List Char) : List Char :=
  s.flatMap fun c => if c = old then new else [c]

def systemdEscapeArg (value : String) : String :=
  String.ofList ('"' :: replaceAll '"' ['\\', '"'] (replaceAll '\\' ['\\', '\\'] value.toList) ++ ['"'])

def escapeDescription (value : String) : String :=
  String.ofList (value.toList.flatMap fun c =>
    if c = '\n' ∨ c = '\r' then [' '] else if c = '%' then ['%', '%'] else [c])

/-- The verb `%02d`. -/
def twoDigits (n : ℤ) : String :=
  if (toString n).length < 2 then "0" ++ toString n else toString n

def days : List String := ["Sun", "Mon", "Tue", "Wed", "Thu", "Fri", "Sat"]

def onCalendar (task : Task) : String :=
  if task.frequency = "hourly" then "*-*-* *:" ++ twoDigits task.minute ++ ":00"
  else if task.frequency = "weekly" then
    days.getD task.weekday.toNat "" ++ " *-*-* " ++ twoDigits task.hour ++ ":" ++
      twoDigits task.minute ++ ":00"
  else "*-*-* " ++ twoDigits task.hour ++ ":" ++ twoDigits task.minute ++ ":00"

/-- The executable of a task and its arguments. -/
def command (docker : LookPath) (task : Task) : Except String (String × List String) :=
  if task.type = "service-restart" then .ok ("/usr/bin/systemctl", ["restart", task.target])
  else if task.type = "docker-restart" then docker.map fun path => (path, ["restart", task.target])
  else if task.type = "docker-cleanup-safe" then
    docker.map fun path => (path, ["system", "prune", "-f"])
  else if task.type = "panel-backup" then
    .ok ("/usr/local/bin/lukepanel", ["--backup-auto", "--config", "/etc/lukepanel/config.json"])
  else .error "任务类型无效"

def execLine (executable : String) (args : List String) : String :=
  args.foldl (fun line arg => line ++ " " ++ systemdEscapeArg arg) (systemdEscapeArg executable)

/-- A text of lines, each with its end. -/
def unlines (lines : List String) : String :=
  String.ofList (lines.flatMap fun line => line.toList ++ ['\n'])

/-- A line that sets a key. -/
def setting (key value : String) : String := key ++ "=" ++ value

def serviceLines (task : Task) (executable : String) (args : List String) : List String :=
  ["[Unit]",
    setting "Description" ("LukePanel task: " ++ escapeDescription task.name),
    setting "After" "network-online.target",
    "",
    "[Service]",
    setting "Type" "oneshot",
    setting "ExecStart" (execLine executable args),
    setting "NoNewPrivileges" "true"]

def timerLines (task : Task) : List String :=
  ["[Unit]",
    setting "Description" ("LukePanel schedule: " ++ escapeDescription task.name),
    "",
    "[Timer]",
    setting "OnCalendar" (onCalendar task),
    setting "Persistent" "true",
    setting "AccuracySec" "1min",
    setting "RandomizedDelaySec" "15s",
    setting "Unit" (serviceUnit task.id),
    "",
    "[Install]",
    setting "WantedBy" "timers.target"]

/-- The service and the timer. -/
def renderUnits (docker : LookPath) (task : Task) : Except String (String × String) := do
  let (executable, args) ← command docker task
  return (unlines (serviceLines task executable args), unlines (timerLines task))

/-- The digits of `UnixNano`, of which the last twelve are kept. -/
def taskID (now : ℤ) : String :=
  if 12 < (toString now).length then
    String.ofList ((toString now).toList.drop ((toString now).length - 12))
  else toString now

def newTask (now : ℤ) (createdAt : String) (req : CreateRequest) : Task :=
  ⟨taskID now, req.name, req.type, req.target, req.frequency, req.hour, req.minute, req.weekday, true,
    createdAt⟩

theorem toString_ofNat (n : ℕ) : (toString (Int.ofNat n)).toList = Nat.toDigits 10 n :=
  Nat.toList_repr

theorem toString_negSucc (n : ℕ) :
    (toString (Int.negSucc n)).toList = '-' :: Nat.toDigits 10 (n + 1) := by
  have happend : toString (Int.negSucc n) = "-" ++ (n + 1).repr := rfl
  rw [happend, String.toList_append, Nat.toList_repr]
  rfl

theorem isDigit_of_mem_toString {n : ℤ} {c : Char} (h : c ∈ (toString n).toList) :
    c.isDigit = true ∨ c = '-' := by
  cases n with
  | ofNat n =>
    rw [toString_ofNat] at h
    exact .inl (Nat.isDigit_of_mem_toDigits (by decide) (by decide) h)
  | negSucc n =>
    rw [toString_negSucc] at h
    rcases List.mem_cons.mp h with h | h
    · exact .inr h
    · exact .inl (Nat.isDigit_of_mem_toDigits (by decide) (by decide) h)

theorem mem_toString_of_mem_taskID {now : ℤ} {c : Char} (h : c ∈ (taskID now).toList) :
    c ∈ (toString now).toList := by
  unfold taskID at h
  split at h
  · rw [String.toList_ofList] at h
    exact List.mem_of_mem_drop h
  · exact h

/-! ## Requests that are accepted -/

/-- What is known of the request that `validateRequest` returns. -/
structure Accepted (req : CreateRequest) : Prop where
  name_trimmed : trimSpace req.name = req.name
  name_ne : req.name ≠ ""
  name_short : req.name.utf8ByteSize ≤ 80
  name_line : ∀ c ∈ req.name.toList, c ≠ '\r' ∧ c ≠ '\n'
  minute : 0 ≤ req.minute ∧ req.minute ≤ 59
  hour : 0 ≤ req.hour ∧ req.hour ≤ 23
  weekday : 0 ≤ req.weekday ∧ req.weekday ≤ 6
  target : req.type = "service-restart" ∨ req.type = "docker-restart" → safeName req.target = true

theorem checkType_eq_ok {docker : LookPath} {req accepted : CreateRequest}
    (h : checkType docker req = .ok accepted) : (∃ target, accepted = { req with target := target }) ∧
      (accepted.type = "service-restart" ∨ accepted.type = "docker-restart" →
        safeName accepted.target = true) := by
  unfold checkType at h
  rcases ite_eq_ok h with ⟨-, hservice⟩ | ⟨hservice, hrest⟩
  · obtain ⟨-, herror⟩ | ⟨hsafe, hok⟩ := ite_eq_ok hservice
    · cases herror
    · cases hok
      exact ⟨⟨_, rfl⟩, fun _ => Bool.not_eq_false _ |>.mp (not_or.mp hsafe).1⟩
  rcases ite_eq_ok hrest with ⟨-, hdocker⟩ | ⟨hdocker, hrest⟩
  · obtain ⟨-, herror⟩ | ⟨hsafe, hrest⟩ := ite_eq_ok hdocker
    · cases herror
    · obtain ⟨-, herror⟩ | ⟨-, hok⟩ := ite_eq_ok hrest
      · cases herror
      · cases hok
        exact ⟨⟨_, rfl⟩, fun _ => Bool.not_eq_false _ |>.mp hsafe⟩
  -- The other types have a target of their own.
  have htarget (target : String) (hok : Except.ok { req with target := target } =
      (.ok accepted : Except String CreateRequest)) :
      (∃ target, accepted = { req with target := target }) ∧
        (accepted.type = "service-restart" ∨ accepted.type = "docker-restart" →
          safeName accepted.target = true) := by
    cases hok
    exact ⟨⟨_, rfl⟩, fun htype => absurd htype (not_or.mpr ⟨hservice, hdocker⟩)⟩
  rcases ite_eq_ok hrest with ⟨-, hcleanup⟩ | ⟨-, hrest⟩
  · obtain ⟨-, herror⟩ | ⟨-, hok⟩ := ite_eq_ok hcleanup
    · cases herror
    · exact htarget _ hok
  rcases ite_eq_ok hrest with ⟨-, hok⟩ | ⟨-, herror⟩
  · exact htarget _ hok
  · cases herror

/-- The request that `validateRequest` returns, and the checks it passed. -/
theorem validateRequest_eq_ok {docker : LookPath} {req accepted : CreateRequest}
    (h : validateRequest docker req = .ok accepted) :
    accepted.name = trimSpace req.name ∧ Accepted accepted := by
  unfold validateRequest at h
  obtain ⟨hname, h⟩ := guard_eq_ok h
  obtain ⟨htime, h⟩ := guard_eq_ok h
  obtain ⟨-, h⟩ := guard_eq_ok h
  obtain ⟨⟨target, rfl⟩, htarget⟩ := checkType_eq_ok h
  simp only [not_or, Nat.not_lt, Int.not_lt, Bool.not_eq_true] at hname htime
  obtain ⟨hne, hshort, hline⟩ := hname
  obtain ⟨hminute, hminute', hhour, hhour', hweekday, hweekday'⟩ := htime
  refine ⟨rfl, trimSpace_trimSpace _, hne, hshort, fun c hc => ?_, ⟨hminute, hminute'⟩,
    ⟨hhour, hhour'⟩, ⟨hweekday, hweekday'⟩, htarget⟩
  have hany := List.any_eq_false.mp hline c hc
  simpa using hany

end LukePanel.Tasks.Units
