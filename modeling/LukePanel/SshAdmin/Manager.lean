import LukePanel.SshAdmin.Sshd
import Mathlib.Data.Finset.Erase

/-! # Changing the settings of sshd

`ApplySettings` and `ConfirmPort` of `internal/sshadmin/manager.go`: the drop-in is rewritten,
validated and loaded, and a change of the port leaves a record until it is confirmed. What the
calls into the system answer is given to each operation. -/
namespace LukePanel.SshAdmin.Manager
open LukePanel.Library.GoStrings LukePanel.SshAdmin.Sshd

structure SettingsRequest where
  port : Int
  permitRootLogin : String
  allowTcpForwarding : Bool
  allowAgentForwarding : Bool
  x11Forwarding : Bool

structure SettingsResult where
  pendingPortConfirmation : Bool
  oldPort : String
  newPort : String
  message : String

structure PendingPort where
  oldPort : String
  newPort : String

/-- The files: the configuration of sshd, the drop-in of the panel, and the record of a pending
port, `none` when there is none that can be parsed. -/
structure Host where
  main : String
  dropIn : Option String
  pending : Option PendingPort

/-! ## The answers of the system -/

/-- How the calls out of `writeAndReload` fail, if they do. The first covers all that is done
before the file is in place. -/
structure ReloadAnswers where
  write : Option String
  validate : Option String
  service : String
  reload : Option String

/-- The record after a failed write. -/
inductive Leftover where
  | before | torn | complete

structure SettingsAnswers where
  root : Bool
  sshdT : Except String String
  read : Option String
  reload : ReloadAnswers
  save : Option (String × Leftover)
  ss : Except String String
  removed : Bool

structure ConfirmAnswers where
  load : Option String
  read : Option String
  reload : ReloadAnswers
  removed : Bool

/-! ## Files -/

def readFile (fault : Option String) (file : Option String) : Except String String :=
  match fault, file with
  | some err, _ => .error err
  | none, none => .error "no such file or directory"
  | none, some content => .ok content

/-- `restoreConfig`. A file that could not be read before is taken for absent. -/
def restoreConfig (old : Except String String) (host : Host) : Host :=
  { host with dropIn := old.toOption }

def writeAndReload (answers : ReloadAnswers) (content : String) (old : Except String String)
    (host : Host) : Except String Unit × Host :=
  match answers.write with
  | some err => (.error err, host)
  | none =>
    let host := { host with dropIn := some content }
    match answers.validate with
    | some output => (.error ("SSH 配置校验失败，已自动恢复: " ++ trimSpace output), restoreConfig old host)
    | none =>
      if answers.service = "" then (.error "未找到 SSH 服务，已自动恢复", restoreConfig old host)
      else match answers.reload with
        | some output =>
          (.error ("SSH 重载失败，已自动恢复: " ++ trimSpace output), restoreConfig old host)
        | none => (.ok (), host)

def savePendingPort (answer : Option (String × Leftover)) (value : PendingPort) (host : Host) :
    Except String Unit × Host :=
  match answer with
  | none => (.ok (), { host with pending := some value })
  | some (err, .before) => (.error err, host)
  | some (err, .torn) => (.error err, { host with pending := none })
  | some (err, .complete) => (.error err, { host with pending := some value })

def loadPendingPort (fault : Option String) (host : Host) : Option PendingPort :=
  if fault.isSome then none else host.pending

/-- `os.Remove(m.pendingPortPath())`, whose error is ignored. -/
def removePendingPort (removed : Bool) (host : Host) : Host :=
  if removed then { host with pending := none } else host

/-! ## Settings -/

def yesNo (value : Bool) : String := if value then "yes" else "no"

def allowedRoot : List String := ["yes", "prohibit-password", "forced-commands-only", "no"]

def settingsLines (currentPort newPort root : String) (request : SettingsRequest) : List String :=
  ["# Managed by LukePanel. Changes are validated before reload."] ++
    (if newPort ≠ currentPort then ["Port " ++ currentPort, "Port " ++ newPort]
      else ["Port " ++ newPort]) ++
    ["PermitRootLogin " ++ root, "AllowTcpForwarding " ++ yesNo request.allowTcpForwarding,
      "AllowAgentForwarding " ++ yesNo request.allowAgentForwarding,
      "X11Forwarding " ++ yesNo request.x11Forwarding]

/-- The part of `ApplySettings` that comes before it touches a file. -/
structure Plan where
  currentPort : String
  newPort : String
  lines : List String

def planSettings (answers : SettingsAnswers) (request : SettingsRequest) : Except String Plan := do
  if !answers.root then throw "需要 root 权限修改 SSH 配置"
  if request.port < 1 ∨ 65535 < request.port then throw "SSH 端口必须是 1-65535"
  let root := toLower (trimSpace request.permitRootLogin)
  if root ∉ allowedRoot then throw "Root 登录策略无效"
  let status := status answers.sshdT
  if !status.available then throw status.error
  let newPort := toString request.port
  return ⟨currentPort status, newPort, settingsLines (currentPort status) newPort root request⟩

/-- `strings.Trim(address, "[]")` -/
def trimBrackets (address : String) : String :=
  String.ofList ((address.toList.dropWhile (· ∈ ['[', ']'])).rdropWhile (· ∈ ['[', ']']))

/-- `listeningPort`. The answer of `ss` is what it prints. -/
def listeningPort (ss : Except String String) (port : String) : Bool :=
  match ss with
  | .error _ => false
  | .ok output => (split '\n' output).any fun line =>
    ((fields line)[3]?).any fun address =>
      (":" ++ port).toList.isSuffixOf (trimBrackets address).toList

def applySettings (answers : SettingsAnswers) (request : SettingsRequest) (host : Host) :
    Except String SettingsResult × Host :=
  match planSettings answers request with
  | .error err => (.error err, host)
  | .ok plan =>
    let old := readFile answers.read host.dropIn
    match writeAndReload answers.reload (written plan.lines) old host with
    | (.error err, host) => (.error err, host)
    | (.ok _, host) =>
      if plan.newPort ≠ plan.currentPort then
        match savePendingPort answers.save ⟨plan.currentPort, plan.newPort⟩ host with
        | (.error err, host) => (.error err, host)
        | (.ok _, host) =>
          if !listeningPort answers.ss plan.newPort then
            (.error "SSH 重载后没有监听新端口，已自动恢复旧配置",
              removePendingPort answers.removed (restoreConfig old host))
          else
            (.ok ⟨true, plan.currentPort, plan.newPort,
              "新旧端口会暂时同时监听。请从另一个终端测试新端口，成功后再确认切换。"⟩, host)
      else (.ok ⟨false, "", "", "SSH 高级设置已生效"⟩, removePendingPort answers.removed host)

/-! ## Confirmation -/

/-- The port whose lines `ConfirmPort` drops. -/
def droppedPort (keepNew : Bool) (pending : PendingPort) : String :=
  if keepNew then pending.oldPort else pending.newPort

def keptLines (dropped content : String) : List String :=
  (split '\n' content).filter fun line =>
    trimSpace line ≠ "Port " ++ dropped ∧ trimSpace line ≠ ""

def confirmPort (answers : ConfirmAnswers) (keepNew : Bool) (host : Host) :
    Except String SettingsResult × Host :=
  match loadPendingPort answers.load host with
  | none => (.error "没有等待确认的 SSH 端口变更", host)
  | some pending =>
    match readFile answers.read host.dropIn with
    | .error err => (.error err, host)
    | .ok content =>
      match writeAndReload answers.reload
          (written (keptLines (droppedPort keepNew pending) content)) (.ok content) host with
      | (.error err, host) => (.error err, host)
      | (.ok _, host) =>
        (.ok (if keepNew then ⟨false, "", pending.newPort, "已确认新 SSH 端口，旧端口已停止监听"⟩
          else ⟨false, pending.oldPort, "", "已取消端口切换，继续使用旧端口"⟩),
          removePendingPort answers.removed host)

/-! ## How a call ends -/

inductive Reload where
  | unwritten | rolledBack | done
  deriving DecidableEq

def ReloadAnswers.outcome (answers : ReloadAnswers) : Reload :=
  if answers.write.isSome then .unwritten
  else if answers.validate.isSome ∨ answers.service = "" ∨ answers.reload.isSome then .rolledBack
  else .done

/-- What a write-and-reload returns and leaves, by how its calls end. -/
inductive Reloaded (content : String) (old : Except String String) (host : Host) :
    Reload → Except String Unit × Host → Prop
  | unwritten {err : String} : Reloaded content old host .unwritten (.error err, host)
  | rolledBack {err : String} :
      Reloaded content old host .rolledBack (.error err, restoreConfig old host)
  | done : Reloaded content old host .done (.ok (), { host with dropIn := some content })

theorem reloaded (answers : ReloadAnswers) (content : String) (old : Except String String)
    (host : Host) :
    Reloaded content old host answers.outcome (writeAndReload answers content old host) := by
  obtain ⟨write, validate, service, reload⟩ := answers
  unfold writeAndReload ReloadAnswers.outcome
  cases write with
  | some err => exact .unwritten
  | none =>
    cases validate with
    | some output => exact .rolledBack
    | none =>
      by_cases hservice : service = ""
      · simpa [hservice] using .rolledBack
      · cases reload with
        | some output => simpa [hservice] using .rolledBack
        | none => simpa [hservice] using .done

/-- How `ApplySettings` ends once it has its plan. -/
inductive Fate where
  | refused | rolledBack | unsaved | switched | settled
  deriving DecidableEq

def fate (answers : SettingsAnswers) (plan : Plan) : Fate :=
  match answers.reload.outcome with
  | .unwritten => .refused
  | .rolledBack => .rolledBack
  | .done =>
    if plan.newPort = plan.currentPort then .settled
    else if answers.save.isSome then .unsaved
    else if listeningPort answers.ss plan.newPort then .switched
    else .rolledBack

/-- What `ApplySettings` returns and leaves, by its fate. -/
inductive Applied (answers : SettingsAnswers) (plan : Plan) (host : Host) :
    Fate → Except String SettingsResult × Host → Prop
  | refused {err : String} : Applied answers plan host .refused (.error err, host)
  | rolledBack {err : String} {pending : Option PendingPort} :
      Applied answers plan host .rolledBack
        (.error err, ⟨host.main, (readFile answers.read host.dropIn).toOption, pending⟩)
  | unsaved {err : String} {pending : Option PendingPort} :
      Applied answers plan host .unsaved
        (.error err, ⟨host.main, some (written plan.lines), pending⟩)
  | switched {message : String} (h : plan.newPort ≠ plan.currentPort) :
      Applied answers plan host .switched
        (.ok ⟨true, plan.currentPort, plan.newPort, message⟩,
          ⟨host.main, some (written plan.lines), some ⟨plan.currentPort, plan.newPort⟩⟩)
  | settled {message : String} {pending : Option PendingPort}
      (h : plan.newPort = plan.currentPort) :
      Applied answers plan host .settled
        (.ok ⟨false, "", "", message⟩, ⟨host.main, some (written plan.lines), pending⟩)

theorem applied {answers : SettingsAnswers} {request : SettingsRequest} {plan : Plan}
    (hplan : planSettings answers request = .ok plan) (host : Host) :
    Applied answers plan host (fate answers plan) (applySettings answers request host) := by
  have hreload := reloaded answers.reload (written plan.lines)
    (readFile answers.read host.dropIn) host
  unfold applySettings fate
  rw [hplan]
  simp only
  generalize writeAndReload answers.reload (written plan.lines)
    (readFile answers.read host.dropIn) host = result at hreload
  generalize answers.reload.outcome = outcome at hreload
  cases hreload with
  | unwritten => exact .refused
  | rolledBack => exact .rolledBack
  | done =>
    by_cases hport : plan.newPort = plan.currentPort
    · simp only [hport, ne_eq, not_true, if_false, if_true, removePendingPort]
      cases answers.removed <;> exact .settled hport
    · simp only [hport, ne_eq, not_false_eq_true, if_true, if_false]
      cases answers.save with
      | some failure =>
        obtain ⟨err, left⟩ := failure
        cases left <;> exact .unsaved
      | none =>
        cases listeningPort answers.ss plan.newPort with
        | true => exact .switched hport
        | false =>
          simp only [removePendingPort]
          cases answers.removed <;> exact .rolledBack

theorem readFile_eq_ok {fault file : Option String} {content : String}
    (h : readFile fault file = .ok content) : file = some content := by
  unfold readFile at h
  split at h
  · cases h
  · cases h
  · cases h
    rfl

/-- What `ConfirmPort` returns and leaves. Its rollback writes back what it has read. -/
inductive Confirmed (answers : ConfirmAnswers) (keepNew : Bool) (host : Host) :
    Except String SettingsResult × Host → Prop
  | unchanged {err : String} : Confirmed answers keepNew host (.error err, host)
  | rewritten {pending : PendingPort} {content : String} {result : SettingsResult}
      {left : Option PendingPort} (hload : loadPendingPort answers.load host = some pending)
      (hread : readFile answers.read host.dropIn = .ok content)
      (hreload : answers.reload.outcome = .done) :
      Confirmed answers keepNew host (.ok result,
        ⟨host.main, some (written (keptLines (droppedPort keepNew pending) content)), left⟩)

theorem confirmed (answers : ConfirmAnswers) (keepNew : Bool) (host : Host) :
    Confirmed answers keepNew host (confirmPort answers keepNew host) := by
  unfold confirmPort
  split
  · exact .unchanged
  · rename_i pending hload
    split
    · exact .unchanged
    · rename_i content hread
      have hreload := reloaded answers.reload
        (written (keptLines (droppedPort keepNew pending) content)) (.ok content) host
      generalize writeAndReload answers.reload
        (written (keptLines (droppedPort keepNew pending) content)) (.ok content) host = result
        at hreload
      generalize houtcome : answers.reload.outcome = outcome at hreload
      cases hreload with
      | unwritten => exact .unchanged
      | rolledBack =>
        have hback : restoreConfig (.ok content) host = host := by
          obtain ⟨main, dropIn, rest⟩ := host
          exact congrArg (Host.mk main · rest) (readFile_eq_ok hread).symm
        rw [hback]
        exact .unchanged
      | done =>
        simp only [removePendingPort]
        cases answers.removed <;> exact .rewritten hload hread houtcome

/-! ## The ports of a host -/

variable (sshd : Reader)

def mainPorts (host : Host) : Finset String := sshd.portsOf host.main

def dropInPorts (host : Host) : Finset String := (host.dropIn.map sshd.portsOf).getD ∅

def configured (host : Host) : Finset String := mainPorts sshd host ∪ dropInPorts sshd host

/-- The ports that sshd listens on: those of its configuration, else its default. -/
def ports (host : Host) : Finset String :=
  if configured sshd host = ∅ then {"22"} else configured sshd host

variable {sshd} {host : Host} {port : String}

theorem isPort_of_mem_configured (h : port ∈ configured sshd host) : IsPort port := by
  rcases Finset.mem_union.mp h with hmain | hdrop
  · exact Reader.isPort_of_mem hmain
  · cases hd : host.dropIn with
    | none => simp [dropInPorts, hd] at hdrop
    | some text =>
      have hmem : port ∈ sshd.portsOf text := by simpa [dropInPorts, hd] using hdrop
      exact Reader.isPort_of_mem hmem

theorem isPort_of_mem_ports (h : port ∈ ports sshd host) : IsPort port := by
  unfold ports at h
  split at h
  · rw [Finset.mem_singleton.mp h]
    exact ⟨22, by decide, by decide, rfl⟩
  · exact isPort_of_mem_configured h

theorem ports_nonempty (sshd : Reader) (host : Host) : (ports sshd host).Nonempty := by
  unfold ports
  split
  · exact Finset.singleton_nonempty _
  · rename_i h
    exact Finset.nonempty_iff_ne_empty.mpr h

theorem ports_of_mem (h : port ∈ configured sshd host) : ports sshd host = configured sshd host :=
  if_neg (Finset.ne_empty_of_mem h)

theorem configured_subset_ports : configured sshd host ⊆ ports sshd host := fun _ h => by
  rwa [ports_of_mem h]

/-! ## The ports of the written lines -/

/-- What the plan of a request means to sshd. -/
structure Plan.Fits (sshd : Reader) (host : Host) (plan : Plan) : Prop where
  currentPort_mem : plan.currentPort ∈ ports sshd host
  newPort : IsPort plan.newPort
  plain : sshd.Plain (written plan.lines)
  ports_eq : sshd.portsOf (written plan.lines) = {plan.currentPort, plan.newPort}

/-- `sshd -T` prints a line for every port that sshd listens on. -/
def Reports (sshd : Reader) (host : Host) (sshdT : Except String String) : Prop :=
  ∀ output, sshdT = .ok output → (reported output).toFinset = ports sshd host

theorem planSettings_eq {answers : SettingsAnswers} {request : SettingsRequest} {plan : Plan}
    (h : planSettings answers request = .ok plan) :
    ∃ root ∈ allowedRoot, ∃ output, answers.sshdT = .ok output ∧
      1 ≤ request.port ∧ request.port ≤ 65535 ∧
      plan = ⟨currentPort (status (.ok output)), toString request.port,
        settingsLines (currentPort (status (.ok output))) (toString request.port) root request⟩ := by
  simp only [planSettings, bind, Except.bind, pure, Except.pure, throw, throwThe,
    MonadExceptOf.throw] at h
  split at h
  · cases h
  split at h
  · cases h
  rename_i hport
  split at h
  · cases h
  rename_i hroot
  cases hT : answers.sshdT with
  | error message => simp [hT, status] at h
  | ok output =>
    simp only [hT, status, Bool.not_true, Bool.false_eq_true, if_false] at h
    refine ⟨_, not_not.mp hroot, output, rfl, by omega, by omega, ?_⟩
    exact (Except.ok.inj h).symm

section Lines

variable {currentPort newPort root line : String} {request : SettingsRequest}

theorem line_cases (h : line ∈ settingsLines currentPort newPort root request) :
    line = "# Managed by LukePanel. Changes are validated before reload." ∨
      line = "Port " ++ currentPort ∨ line = "Port " ++ newPort ∨
      ∃ keyword ∈ settingKeywords, ∃ value, line = keyword ++ value ∧
        (value = root ∨ ∃ b, value = yesNo b) := by
  simp only [settingsLines, List.mem_append, List.mem_cons, List.not_mem_nil, or_false] at h
  rcases h with (h | h) | h | h | h | h
  · exact .inl h
  · split at h
    · simp only [List.mem_cons, List.not_mem_nil, or_false] at h
      exact h.elim (fun h => .inr (.inl h)) fun h => .inr (.inr (.inl h))
    · exact .inr (.inr (.inl (List.mem_singleton.mp h)))
  · exact .inr (.inr (.inr ⟨_, by decide, _, h, .inl rfl⟩))
  · exact .inr (.inr (.inr ⟨"AllowTcpForwarding ", by decide, _, h, .inr ⟨_, rfl⟩⟩))
  · exact .inr (.inr (.inr ⟨"AllowAgentForwarding ", by decide, _, h, .inr ⟨_, rfl⟩⟩))
  · exact .inr (.inr (.inr ⟨"X11Forwarding ", by decide, _, h, .inr ⟨_, rfl⟩⟩))

theorem portLine_mem :
    "Port " ++ currentPort ∈ settingsLines currentPort newPort root request ∧
      "Port " ++ newPort ∈ settingsLines currentPort newPort root request := by
  by_cases h : newPort = currentPort <;> simp [settingsLines, h]

theorem line_no_newline (hcur : IsPort currentPort) (hnew : IsPort newPort)
    (hroot : root ∈ allowedRoot) (h : line ∈ settingsLines currentPort newPort root request) :
    '\n' ∉ line.toList := by
  have hkeyword : ∀ keyword ∈ settingKeywords, '\n' ∉ keyword.toList := by decide
  have hallowed : ∀ root ∈ allowedRoot, '\n' ∉ root.toList := by decide
  have hyesNo : ∀ b, '\n' ∉ (yesNo b).toList := by decide
  have hport : '\n' ∉ "Port ".toList := by decide
  rcases line_cases h with rfl | rfl | rfl | ⟨keyword, hk, value, rfl, rfl | ⟨b, rfl⟩⟩
  · decide
  · simp only [String.toList_append, List.mem_append, not_or]
    exact ⟨hport, hcur.not_newline⟩
  · simp only [String.toList_append, List.mem_append, not_or]
    exact ⟨hport, hnew.not_newline⟩
  · simp only [String.toList_append, List.mem_append, not_or]
    exact ⟨hkeyword _ hk, hallowed _ hroot⟩
  · simp only [String.toList_append, List.mem_append, not_or]
    exact ⟨hkeyword _ hk, hyesNo b⟩

theorem portOf_line (hcur : IsPort currentPort) (hnew : IsPort newPort)
    (h : line ∈ settingsLines currentPort newPort root request)
    (hline : sshd.portOf line = some port) :
    line = "Port " ++ port ∧ (port = currentPort ∨ port = newPort) := by
  rcases line_cases h with rfl | rfl | rfl | ⟨keyword, hk, value, rfl, _⟩
  · rw [show "# Managed by LukePanel. Changes are validated before reload." =
      "#" ++ " Managed by LukePanel. Changes are validated before reload." from rfl,
      sshd.comment_line] at hline
    cases hline
  · rw [sshd.port_line hcur] at hline
    cases hline
    exact ⟨rfl, .inl rfl⟩
  · rw [sshd.port_line hnew] at hline
    cases hline
    exact ⟨rfl, .inr rfl⟩
  · rw [sshd.setting_line value hk] at hline
    cases hline

theorem settingsLines_fit (hcur : currentPort ∈ ports sshd host) (hnew : IsPort newPort)
    (hroot : root ∈ allowedRoot) :
    Plan.Fits sshd host ⟨currentPort, newPort, settingsLines currentPort newPort root request⟩ := by
  have hcurPort := isPort_of_mem_ports hcur
  have hnewline : ∀ line ∈ settingsLines currentPort newPort root request, '\n' ∉ line.toList :=
    fun _ => line_no_newline hcurPort hnew hroot
  refine ⟨hcur, hnew, Reader.plain_written hnewline fun line hline port hp =>
    (portOf_line hcurPort hnew hline hp).1, ?_⟩
  ext port
  rw [Reader.mem_portsOf_written hnewline, Finset.mem_insert, Finset.mem_singleton]
  refine ⟨fun ⟨line, hline, hp⟩ => (portOf_line hcurPort hnew hline hp).2, ?_⟩
  rintro (rfl | rfl)
  · exact ⟨_, portLine_mem.1, sshd.port_line hcurPort⟩
  · exact ⟨_, portLine_mem.2, sshd.port_line hnew⟩

end Lines

theorem Plan.fits {answers : SettingsAnswers} {request : SettingsRequest} {plan : Plan}
    (h : planSettings answers request = .ok plan) (hr : Reports sshd host answers.sshdT) :
    plan.Fits sshd host := by
  obtain ⟨root, hroot, output, hT, hlow, hhigh, rfl⟩ := planSettings_eq h
  have hcur := currentPort_mem (hr output hT) (ports_nonempty sshd host)
    fun _ => isPort_of_mem_ports
  have hnew : IsPort (toString request.port) := by
    obtain ⟨n, hn⟩ := Int.eq_ofNat_of_zero_le (by omega : 0 ≤ request.port)
    refine ⟨n, by omega, by omega, ?_⟩
    rw [hn]
    rfl
  exact settingsLines_fit hcur hnew hroot

/-! ## The ports of the kept lines -/

theorem keptLines_no_newline {dropped content line : String}
    (h : line ∈ keptLines dropped content) : '\n' ∉ line.toList :=
  sep_not_mem_of_mem_split (List.mem_filter.mp h).1

theorem mem_keptLines {dropped content line : String} :
    line ∈ keptLines dropped content ↔
      line ∈ split '\n' content ∧ trimSpace line ≠ "Port " ++ dropped ∧ trimSpace line ≠ "" := by
  simp [keptLines]

/-- In a file the panel has written, the lines of one port go. -/
theorem portsOf_keptLines {dropped content : String} (h : sshd.Plain content) :
    sshd.portsOf (written (keptLines dropped content)) = (sshd.portsOf content).erase dropped := by
  ext port
  rw [Reader.mem_portsOf_written fun _ => keptLines_no_newline, Finset.mem_erase,
    Reader.mem_portsOf]
  refine ⟨?_, ?_⟩
  · rintro ⟨line, hline, hp⟩
    obtain ⟨hsplit, hdropped, _⟩ := mem_keptLines.mp hline
    refine ⟨?_, line, hsplit, hp⟩
    rintro rfl
    rw [h line hsplit port hp] at hdropped
    exact hdropped (sshd.isPort hp).trimSpace_line
  · rintro ⟨hne, line, hsplit, hp⟩
    have hline := h line hsplit port hp
    have htrim : trimSpace line = "Port " ++ port := by
      rw [hline, (sshd.isPort hp).trimSpace_line]
    refine ⟨line, mem_keptLines.mpr ⟨hsplit, ?_, ?_⟩, hp⟩
    · rw [htrim]
      exact fun he => hne (String.append_right_inj "Port " |>.mp he)
    · rw [htrim]
      simp

/-- Dropping lines that add nothing leaves the ports. -/
theorem union_portsOf_keptLines {dropped content : String} {others : Finset String}
    (h : ∀ line ∈ split '\n' content, trimSpace line = "Port " ++ dropped →
      ∀ port, sshd.portOf line = some port → port ∈ others) :
    others ∪ sshd.portsOf (written (keptLines dropped content)) =
      others ∪ sshd.portsOf content := by
  ext port
  rw [Finset.mem_union, Finset.mem_union, Reader.mem_portsOf_written fun _ => keptLines_no_newline,
    Reader.mem_portsOf]
  refine ⟨?_, ?_⟩
  · rintro (hport | ⟨line, hline, hp⟩)
    · exact .inl hport
    · exact .inr ⟨line, (mem_keptLines.mp hline).1, hp⟩
  · rintro (hport | ⟨line, hsplit, hp⟩)
    · exact .inl hport
    · by_cases hdropped : trimSpace line = "Port " ++ dropped
      · exact .inl (h line hsplit hdropped port hp)
      · refine .inr ⟨line, mem_keptLines.mpr ⟨hsplit, hdropped, fun hempty => ?_⟩, hp⟩
        rw [sshd.blank_line (isSpace_of_trimSpace_eq_empty hempty)] at hp
        cases hp

end LukePanel.SshAdmin.Manager
