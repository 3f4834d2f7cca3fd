import LukePanel.Library.GoStrings
import Mathlib.Data.List.Basic

/-! # The firewall

`EnableUFW`, `ConfirmUFW`, `DisableUFW` and `scheduleUFWRecovery` of
`internal/hostadmin/firewall.go`, over the rules of UFW and the timer unit that turns UFW off
again. -/
namespace LukePanel.HostAdmin.Firewall
open LukePanel.Library.GoStrings

/-! ## UFW -/

/-- An IP address in its form of 16 bytes. -/
abbrev Address := BitVec 128

/-- `IP.IsLoopback` -/
def Address.isLoopback (ip : Address) : Bool :=
  if ip >>> 32 = 0xffff#128 then ip >>> 24 = 0xffff7f#128 else ip = 1#128

structure Network where
  address : Address
  bits : ℕ
deriving DecidableEq

def Network.contains (network : Network) (ip : Address) : Bool :=
  ip >>> (128 - network.bits) = network.address >>> (128 - network.bits)

inductive Action where
  | allow | deny | reject | limit
deriving DecidableEq

inductive Direction where
  | incoming | outgoing
deriving DecidableEq

inductive Protocol where
  | tcp | udp
deriving DecidableEq

/-- What a rule is about. Where nothing is given it is about everything. -/
structure Match where
  direction : Direction
  device : Option String
  source : Option Network
  destination : Option Network
  ports : Option (Int × Int)
  protocol : Option Protocol
deriving DecidableEq

structure Rule extends Match where
  action : Action
deriving DecidableEq

/-- The rule lets the caller reach a port over TCP. The caller's address may be unknown. -/
def Rule.permits (rule : Rule) (caller : Option Address) (port : Int) : Bool :=
  rule.action = .allow && rule.direction = .incoming && rule.device.isNone &&
    rule.destination.isNone && rule.protocol ≠ some .udp &&
    rule.ports.all (fun range => range.1 ≤ port && port ≤ range.2) &&
    rule.source.all fun network => caller.any network.contains

/-- The state of UFW, with the rules there were when it was last turned on. -/
structure Ufw where
  rules : List Rule
  incoming : Action
  outgoing : Action
  active : Bool
  enabledWith : List Rule

/-- UFW skips a rule it has, and changes the action of a rule about the same. -/
def addRule (rule : Rule) (rules : List Rule) : List Rule :=
  if rules.any (·.toMatch = rule.toMatch) then
    rules.map fun old => if old.toMatch = rule.toMatch then rule else old
  else rules ++ [rule]

/-! ## Commands -/

/-- How a command ends: its output if it fails, and whether it takes effect all the same. -/
structure Ran where
  err : Option String
  took : Bool

def Ran.effective (ran : Ran) : Bool := ran.err.isNone || ran.took

def Ran.ok : Ran := ⟨none, true⟩

def Ran.onUfw (ran : Ran) (command : Ufw → Ufw) (ufw : Ufw) : Ufw :=
  if ran.effective then command ufw else ufw

def Ufw.allow (rule : Rule) (ufw : Ufw) : Ufw := { ufw with rules := addRule rule ufw.rules }

def Ufw.enable (ufw : Ufw) : Ufw := { ufw with active := true, enabledWith := ufw.rules }

def Ufw.disable (ufw : Ufw) : Ufw := { ufw with active := false }

/-! ## Opening the SSH ports -/

/-- The caller's address, if it can stand in a rule. -/
def callerAddress (parseIP : String → Option Address) (currentIP : String) : Option Address :=
  match parseIP (trimSpace currentIP) with
  | some ip => if ip.isLoopback then none else some ip
  | none => none

/-- What `ufw allow` adds for `port/tcp`, or with an address for
`from ip to any port port proto tcp`. -/
def allowRule (caller : Option Address) (port : Int) : Rule where
  direction := .incoming
  device := none
  source := caller.map fun ip => ⟨ip, 128⟩
  destination := none
  ports := some (port, port)
  protocol := some .tcp
  action := .allow

/-- The loop of `EnableUFW` over the ports, with those it has seen. -/
def allowPorts (answers : Int → Ran) (caller : Option Address) (seen : List Int) :
    List Int → Ufw → Except String Unit × Ufw
  | [], ufw => (.ok (), ufw)
  | port :: rest, ufw =>
    if port < 1 ∨ 65535 < port ∨ port ∈ seen then allowPorts answers caller seen rest ufw
    else
      let allowed := (answers port).onUfw (Ufw.allow (allowRule caller port)) ufw
      match (answers port).err with
      | some output => (.error ("放行 SSH 端口失败: " ++ trimSpace output), allowed)
      | none => allowPorts answers caller (port :: seen) rest allowed

/-- The ports that are opened when none is given. -/
def portsOrDefault (sshPorts : List Int) : List Int := if sshPorts = [] then [22] else sshPorts

structure EnableAnswers where
  root : Bool
  ufw : Bool
  allow : Int → Ran
  incoming : Ran
  outgoing : Ran
  enable : Ran

/-- `EnableUFW` until UFW is on. -/
def turnOn (answers : EnableAnswers) (caller : Option Address) (sshPorts : List Int) (ufw : Ufw) :
    Except String Unit × Ufw :=
  if !answers.root then (.error "需要 root 权限启用 UFW", ufw)
  else if !answers.ufw then (.error "请先安装 UFW", ufw)
  else
    match allowPorts answers.allow caller [] (portsOrDefault sshPorts) ufw with
    | (.error err, ufw) => (.error err, ufw)
    | (.ok _, ufw) =>
      let ufw := answers.incoming.onUfw (fun ufw => { ufw with incoming := .deny }) ufw
      let ufw := answers.outgoing.onUfw (fun ufw => { ufw with outgoing := .allow }) ufw
      let ufw := answers.enable.onUfw Ufw.enable ufw
      match answers.enable.err with
      | some output => (.error ("启用 UFW 失败: " ++ trimSpace output), ufw)
      | none => (.ok (), ufw)

/-! ## The recovery timer -/

/-- `OnActiveSec=5min` -/
def onActiveSec : ℕ := 300

/-- `AccuracySec=5s` -/
def accuracySec : ℕ := 5

/-- A timer unit. Having elapsed it stays active, as `RemainAfterElapse` says by default. -/
inductive Timer where
  | inactive
  | waiting (due : ℕ)
  | elapsed
deriving DecidableEq

/-- `systemctl start` does nothing to a unit that is active. -/
def Timer.start (now : ℕ) : Timer → Timer
  | .inactive => .waiting (now + onActiveSec)
  | .waiting due => .waiting due
  | .elapsed => .elapsed

/-- The file `ufw-recovery.pending` is there or not. -/
structure Host where
  ufw : Ufw
  timer : Timer
  pending : Bool

structure ScheduleAnswers where
  mkdir : Option String
  pending : Option String
  service : Option String
  timer : Option String
  reload : Option String
  start : Ran

def scheduleUFWRecovery (answers : ScheduleAnswers) (now : ℕ) (host : Host) :
    Except String Unit × Host :=
  match answers.mkdir, answers.pending with
  | some err, _ => (.error err, host)
  | none, some err => (.error err, host)
  | none, none =>
    let marked := { host with pending := true }
    match answers.service, answers.timer, answers.reload with
    | some err, _, _ => (.error err, marked)
    | none, some err, _ => (.error err, marked)
    | none, none, some output => (.error ("systemd reload: " ++ output), marked)
    | none, none, none =>
      let started :=
        if answers.start.effective then { marked with timer := host.timer.start now } else marked
      match answers.start.err with
      | some output => (.error ("recovery timer: " ++ output), started)
      | none => (.ok (), started)

/-- Every call of `scheduleUFWRecovery` works. -/
def ScheduleAnswers.work (answers : ScheduleAnswers) : Bool :=
  answers.mkdir.isNone && answers.pending.isNone && answers.service.isNone &&
    answers.timer.isNone && answers.reload.isNone && answers.start.err.isNone

structure ArmAnswers where
  schedule : ScheduleAnswers
  disable : Ran

/-- `EnableUFW` from when UFW is on. -/
def arm (answers : ArmAnswers) (now : ℕ) (host : Host) : Except String Unit × Host :=
  match scheduleUFWRecovery answers.schedule now host with
  | (.ok _, host) => (.ok (), host)
  | (.error err, host) =>
    (.error ("无法创建防失联恢复任务，已关闭 UFW: " ++ err),
      { host with ufw := answers.disable.onUfw Ufw.disable host.ufw })

/-- `EnableUFW`, without the `FirewallInfo` it reads for its answer. -/
def enableUFW (answers : EnableAnswers) (armed : ArmAnswers) (caller : Option Address)
    (sshPorts : List Int) (now : ℕ) (host : Host) : Except String Unit × Host :=
  match turnOn answers caller sshPorts host.ufw with
  | (.error err, ufw) => (.error err, { host with ufw := ufw })
  | (.ok _, ufw) => arm armed now { host with ufw := ufw }

structure ConfirmAnswers where
  systemctl : Bool
  stop : Ran
  remove : Ran

/-- `ConfirmUFW`, which looks at no error. Stopping the service and resetting it changes neither
the timer nor UFW. -/
def confirmUFW (answers : ConfirmAnswers) (host : Host) : Except String Unit × Host :=
  (.ok (), { host with
    timer := if answers.systemctl && answers.stop.effective then .inactive else host.timer
    pending := host.pending && !answers.remove.effective })

def disableUFW (disable : Ran) (answers : ConfirmAnswers) (host : Host) :
    Except String Unit × Host :=
  let disabled := { host with ufw := disable.onUfw Ufw.disable host.ufw }
  match disable.err with
  | some output => (.error ("关闭 UFW 失败: " ++ trimSpace output), disabled)
  | none => confirmUFW answers disabled

/-- What the timer does when it elapses. -/
def recover (host : Host) : Host := ⟨host.ufw.disable, .elapsed, false⟩

/-! ## Scheduling the recovery -/

/-- A schedule goes through if its calls work, and it leaves UFW. -/
theorem schedule_ok_iff {answers : ScheduleAnswers} {now : ℕ} {host : Host} :
    (scheduleUFWRecovery answers now host).1 = .ok () ↔ answers.work = true := by
  unfold scheduleUFWRecovery ScheduleAnswers.work
  dsimp only
  repeat' split
  all_goals simp_all

theorem schedule_ufw (answers : ScheduleAnswers) (now : ℕ) (host : Host) :
    (scheduleUFWRecovery answers now host).2.ufw = host.ufw := by
  unfold scheduleUFWRecovery
  dsimp only
  repeat' split
  all_goals rfl

/-- It leaves the timer or starts it. -/
theorem schedule_timer (answers : ScheduleAnswers) (now : ℕ) (host : Host) :
    (scheduleUFWRecovery answers now host).2.timer = host.timer ∨
      (scheduleUFWRecovery answers now host).2.timer = host.timer.start now := by
  unfold scheduleUFWRecovery
  dsimp only
  repeat' split
  all_goals simp

theorem schedule_timer_of_ok {answers : ScheduleAnswers} {now : ℕ} {host : Host}
    (h : (scheduleUFWRecovery answers now host).1 = .ok ()) :
    (scheduleUFWRecovery answers now host).2.timer = host.timer.start now := by
  unfold scheduleUFWRecovery at h ⊢
  dsimp only at h ⊢
  repeat' split at h
  all_goals simp_all [Ran.effective]

end LukePanel.HostAdmin.Firewall
