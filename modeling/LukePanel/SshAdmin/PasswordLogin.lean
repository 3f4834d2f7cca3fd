import LukePanel.Library.Machine
import LukePanel.SshAdmin.Keys
import LukePanel.SshAdmin.Manager

/-! # Logging in without a password

`SetPasswordAuthentication`, `GenerateKey`, `CreateUser` and `DeleteUser` of
`internal/sshadmin/manager.go`, and runs of them with `AddKey` and `DeleteKey`: while the panel
keeps passwords off, some user has a public key to log in with. -/
namespace LukePanel.SshAdmin.PasswordLogin
open LukePanel.Library LukePanel.Library.GoStrings
open LukePanel.Library.SlashPath (clean)
open LukePanel.SshAdmin.Sshd LukePanel.SshAdmin.Keys
open LukePanel.SshAdmin.Manager (ReloadAnswers readFile yesNo)

/-! ## Password authentication -/

/-- How the calls out of `SetPasswordAuthentication` are answered. -/
structure PasswordAnswers where
  root : Bool
  sshd : Bool
  passwd : Option String
  keyFaults : List String → Option (Nat × String)
  before : Except String String
  mkdir : Option String
  read : Option String
  reload : ReloadAnswers
  restored : Option String
  reloadedOld : Option String
  after : Except String String

/-- The checks before a file is touched. -/
def checkPassword (answers : PasswordAnswers) (enabled : Bool) (host : Host) :
    Except String Unit := do
  if !answers.root then throw "需要 root 权限修改 SSH 配置"
  if !answers.sshd then throw "未安装 OpenSSH Server"
  if !enabled then
    if let some err := answers.passwd then throw err
    if ((users answers.keyFaults host).all fun user => user.keyCount = 0) then
      throw "至少先添加并测试一把 SSH 公钥，才能关闭密码登录"
    let status := status answers.before
    if !status.available || toLower status.pubkeyAuthentication ≠ "yes" then
      throw "SSH 公钥登录尚未启用，不能关闭密码登录"

def hardeningContent (enabled : Bool) : String :=
  "# Managed by LukePanel. Edit from the panel or remove this file.\n" ++
    "PasswordAuthentication " ++ yesNo enabled ++ "\n" ++
    "KbdInteractiveAuthentication " ++ yesNo enabled ++ "\n" ++
    "ChallengeResponseAuthentication " ++ yesNo enabled ++ "\n"

/-- What `reloadOldConfig` adds to an error. -/
def rollbackNote (answers : PasswordAnswers) (service : String) : String :=
  match answers.restored with
  | some output => "；恢复后的 SSH 配置校验失败，请保持当前连接并立即检查：" ++ trimSpace output
  | none =>
    match answers.reloadedOld with
    | some output =>
      if service = "" then ""
      else "；旧配置已写回，但重新加载失败，请保持当前连接并立即检查：" ++ trimSpace output
    | none => ""

def setPasswordAuthentication (answers : PasswordAnswers) (enabled : Bool) (host : Host) :
    Except String Unit × Host :=
  match checkPassword answers enabled host with
  | .error err => (.error err, host)
  | .ok _ =>
    match answers.mkdir with
    | some err => (.error err, host)
    | none =>
      let old := readFile answers.read host.hardening
      let restored := { host with hardening := old.toOption }
      match answers.reload.write with
      | some err => (.error err, host)
      | none =>
        match answers.reload.validate with
        | some output =>
          (.error ("SSH 配置校验失败，已自动恢复: " ++ trimSpace output ++ rollbackNote answers ""),
            restored)
        | none =>
          if answers.reload.service = "" then
            (.error "未找到 SSH systemd 服务，配置已自动恢复", restored)
          else
            match answers.reload.reload with
            | some output =>
              (.error ("SSH 重载失败，配置已自动恢复: " ++ trimSpace output ++
                rollbackNote answers answers.reload.service), restored)
            | none =>
              let status := status answers.after
              if !status.available ∨ toLower status.passwordAuthentication ≠ yesNo enabled then
                let actual := if status.passwordAuthentication = "" then "无法读取"
                  else status.passwordAuthentication
                (.error ("SSH 返回的实际 PasswordAuthentication=" ++ actual ++ "，目标值=" ++
                  yesNo enabled ++ "；系统可能没有加载 sshd_config.d，已自动恢复" ++
                  rollbackNote answers answers.reload.service), restored)
              else (.ok (), { host with hardening := some (hardeningContent enabled) })

/-! ## Generating a key -/

structure GeneratedKey where
  filename : String
  privateKey : String
  publicKey : String
  fingerprint : String
  comment : String

/-- What the system answers to `GenerateKey`, with the two texts it makes of the clock. -/
structure GenerateAnswers where
  root : Bool
  keygen : Bool
  passwd : Option String
  day : String
  stamp : String
  generated : Except String (String × String)
  add : KeyAnswers

variable (sha256 : List UInt8 → List UInt8)

def checkGenerate (answers : GenerateAnswers) (username comment passphrase : String)
    (host : Host) : Except String (String × String) := do
  if !answers.root then throw "需要 root 权限生成 SSH 密钥"
  if !answers.keygen then throw "未找到 ssh-keygen"
  let _ ← lookupUser answers.passwd host username
  let comment := trimSpace comment
  let comment := if comment = "" then "lukepanel-" ++ username ++ "-" ++ answers.day else comment
  if 120 < comment.utf8ByteSize ∨ containsAny comment ['\r', '\n', '\x00'] then
    throw "密钥备注过长或包含非法字符"
  if 256 < passphrase.utf8ByteSize ∨ containsAny passphrase ['\x00'] then
    throw "私钥口令过长或包含非法字符"
  answers.generated

def generateKey (answers : GenerateAnswers) (username comment passphrase : String)
    (host : Host) : Except String GeneratedKey × Host :=
  match checkGenerate answers username comment passphrase host with
  | .error err => (.error err, host)
  | .ok (privateKey, publicKey) =>
    match addKey sha256 answers.add username publicKey host with
    | (.error err, host) => (.error err, host)
    | (.ok key, host) =>
      (.ok ⟨username ++ "-lukepanel-" ++ answers.stamp ++ "-ed25519", privateKey,
        trimSpace publicKey, key.fingerprint, key.comment⟩, host)

/-! ## Users -/

def isManagedName (name : String) : Bool :=
  let lower c := 'a' ≤ c && c ≤ 'z'
  match name.toList with
  | c :: rest => (lower c || c == '_') && rest.length ≤ 31 &&
      rest.all fun c => lower c || c.isDigit || c == '_' || c == '-'
  | [] => false

def isProtected (name : String) : Bool :=
  !isManagedName name || name == "root" || name == "lukepanel"

def accountName (entry : String) : String := (split ':' entry).headD ""

/-- What `useradd` does: it fails, and it adds a line of `/etc/passwd` and, with a new home, the
key file of the skeleton. -/
structure Useradd where
  err : Option String
  entry : Option (String × Option String)

def Useradd.apply (useradd : Useradd) (host : Host) : Host :=
  match useradd.entry with
  | none => host
  | some (entry, skeleton) =>
    let added := { host with passwd := host.passwd ++ [entry] }
    match skeleton, parseAccount entry with
    | some content, some account =>
      if (host.files (keysPath account.home)).isNone then
        added.setFile (keysPath account.home) content
      else added
    | _, _ => added

/-- What `userdel` does: it fails, it takes the lines of the name out of `/etc/passwd`, and it
removes files. -/
structure Userdel where
  err : Option String
  entry : Bool
  removed : List (List String)

def Userdel.apply (userdel : Userdel) (name : String) (host : Host) : Host :=
  { host with
    passwd := if userdel.entry then host.passwd.filter (accountName · != name) else host.passwd
    files := fun path => if userdel.removed.contains path then none else host.files path }

structure CreateAnswers where
  known : Bool
  useradd : Useradd
  sudoers : Option String
  passwd : Option String
  userdel : Userdel

/-- What `CreateUser` does after `useradd`. -/
def readCreated (answers : CreateAnswers) (name : String) (withSudo : Bool) (host : Host) :
    Except String User :=
  match (if withSudo then answers.sudoers else none), answers.passwd with
  | some err, _ => .error err
  | none, some err => .error err
  | none, none =>
    match (users (fun _ => none) host).find? (·.name = name) with
    | some user => .ok user
    | none => .error "用户已创建但无法重新读取"

def createUser (answers : CreateAnswers) (name : String) (withSudo : Bool) (host : Host) :
    Except String User × Host :=
  let name := trimSpace name
  if isProtected name then
    (.error "用户名只能使用小写字母、数字、下划线和短横线", host)
  else if answers.known then (.error "系统用户已经存在", host)
  else
    let created := answers.useradd.apply host
    match answers.useradd.err with
    | some output => (.error ("创建用户失败：" ++ trimSpace output), created)
    | none =>
      match readCreated answers name withSudo created with
      | .ok user => (.ok user, created)
      | .error err => (.error err, answers.userdel.apply name created)

structure DeleteAnswers where
  uid : Option Int
  processes : String
  userdel : Userdel

def deleteUser (answers : DeleteAnswers) (name : String) (host : Host) :
    Except String Unit × Host :=
  let name := trimSpace name
  if isProtected name then (.error "不能删除受保护用户", host)
  else match answers.uid with
    | none => (.error "系统用户不存在", host)
    | some uid =>
      if uid < 1000 then (.error "不能通过面板删除系统服务用户", host)
      else if trimSpace answers.processes ≠ "" then
        (.error "这个用户仍有运行中的进程，请先退出会话并停止进程", host)
      else
        match answers.userdel.err with
        | some output =>
          (.error ("删除用户失败：" ++ trimSpace output), answers.userdel.apply name host)
        | none => (.ok (), answers.userdel.apply name host)

/-! ## Runs -/

/-- The host, and whether passwords are off because the panel last turned them off. -/
structure State where
  host : Host
  disabled : Bool

inductive Call where
  | setPassword (answers : PasswordAnswers) (enabled : Bool)
  | addKey (answers : KeyAnswers) (username value : String)
  | generateKey (answers : GenerateAnswers) (username comment passphrase : String)
  | deleteKey (answers : KeyAnswers) (username id : String)
  | createUser (answers : CreateAnswers) (name : String) (withSudo : Bool)
  | deleteUser (answers : DeleteAnswers) (name : String)

def Call.perform (host : Host) : Call → Host
  | .setPassword answers enabled => (setPasswordAuthentication answers enabled host).2
  | .addKey answers username value => (Keys.addKey sha256 answers username value host).2
  | .generateKey answers username comment passphrase =>
    (PasswordLogin.generateKey sha256 answers username comment passphrase host).2
  | .deleteKey answers username id => (Keys.deleteKey sha256 answers username id host).2
  | .createUser answers name withSudo =>
    (PasswordLogin.createUser answers name withSudo host).2
  | .deleteUser answers name => (PasswordLogin.deleteUser answers name host).2

def disabledAfter (s : State) : Call → Bool
  | .setPassword answers enabled =>
    match (setPasswordAuthentication answers enabled s.host).1 with
    | .ok _ => !enabled
    | .error _ => s.disabled
  | _ => s.disabled

/-- `useradd` adds a user of the name it is given. -/
def Enabled : Call → Prop
  | .createUser answers name _ =>
    (answers.useradd.err = none → answers.useradd.entry ≠ none) ∧
      ∀ added ∈ answers.useradd.entry, accountName added.1 = trimSpace name
  | _ => True

instance : (c : Call) → Decidable (Enabled c)
  | .createUser _ _ _ => inferInstanceAs (Decidable (_ ∧ _))
  | .setPassword _ _ | .addKey _ _ _ | .generateKey _ _ _ _ | .deleteKey _ _ _
  | .deleteUser _ _ => inferInstanceAs (Decidable True)

def step (s : State) (c : Call) : Option State :=
  if Enabled c then some ⟨c.perform sha256 s.host, disabledAfter s c⟩ else none

/-! ## The condition on a call -/

/-- The calls that `SetPasswordAuthentication` makes after its checks all work. -/
def PasswordAnswers.takesEffect (answers : PasswordAnswers) (enabled : Bool) : Bool :=
  answers.mkdir.isNone && answers.reload.write.isNone && answers.reload.validate.isNone &&
    answers.reload.service ≠ "" && answers.reload.reload.isNone &&
    (status answers.after).available &&
    toLower (status answers.after).passwordAuthentication = yesNo enabled

/-- `CreateUser` adds the user and takes it back. -/
def rollsBack (answers : CreateAnswers) (name : String) (withSudo : Bool) (host : Host) : Bool :=
  !isProtected (trimSpace name) && !answers.known && answers.useradd.err.isNone &&
    (readCreated answers (trimSpace name) withSudo (answers.useradd.apply host)).toOption.isNone

/-- `DeleteUser` gets as far as `userdel`. -/
def callsUserdel (answers : DeleteAnswers) (name : String) : Bool :=
  !isProtected (trimSpace name) && answers.uid.any (1000 ≤ ·) && trimSpace answers.processes = ""

/-- A user that can log in has a key besides the lines of one id in one file. -/
def KeyBesides (host : Host) (path : List String) (id : String) : Prop :=
  ∃ account ∈ host.passwd.filterMap parseAccount, ∃ line ∈ keysAt host (keysPath account.home),
    isKey sha256 line = true ∧ (keysPath account.home = path → hasID sha256 id line = false)

/-- A user that can log in keeps its line of `/etc/passwd` and a file with a key. -/
def KeySpared (host : Host) (name : String) (userdel : Userdel) : Prop :=
  ∃ entry ∈ host.passwd, (userdel.entry = true → accountName entry ≠ name) ∧
    ∃ account ∈ parseAccount entry, keysPath account.home ∉ userdel.removed ∧
      ∃ line ∈ keysAt host (keysPath account.home), isKey sha256 line = true

/-- Turning passwords off finds a key, and while they are off a call that takes keys away leaves
another one. -/
def Meets (s : State) : Call → Prop
  | .setPassword answers enabled => enabled = false →
    checkPassword answers enabled s.host = .ok () → answers.takesEffect enabled = true →
      KeyLogin sha256 s.host
  | .deleteKey answers username id => s.disabled = true → answers.read = none →
    answers.write = none → ∀ user, lookupUser answers.passwd s.host username = .ok user →
      KeyBesides sha256 s.host (keysPath user.home) id
  | .createUser answers name withSudo => s.disabled = true →
    rollsBack answers name withSudo s.host = true →
      KeySpared sha256 s.host (trimSpace name) answers.userdel
  | .deleteUser answers name => s.disabled = true → callsUserdel answers name = true →
    KeySpared sha256 s.host (trimSpace name) answers.userdel
  | .addKey _ _ _ | .generateKey _ _ _ _ => True

instance (host : Host) (path : List String) (id : String) :
    Decidable (KeyBesides sha256 host path id) :=
  inferInstanceAs (Decidable (∃ account ∈ host.passwd.filterMap parseAccount, _))

instance (host : Host) (name : String) (userdel : Userdel) :
    Decidable (KeySpared sha256 host name userdel) :=
  inferInstanceAs (Decidable (∃ entry ∈ host.passwd, _))

instance (host : Host) : Decidable (KeyLogin sha256 host) :=
  inferInstanceAs (Decidable (∃ account ∈ host.passwd.filterMap parseAccount, _))

instance (s : State) : (c : Call) → Decidable (Meets sha256 s c)
  | .setPassword _ _ | .deleteKey _ _ _ | .createUser _ _ _ | .deleteUser _ _ =>
    inferInstanceAs (Decidable (_ → _))
  | .addKey _ _ _ | .generateKey _ _ _ _ => inferInstanceAs (Decidable True)

/-! ## What the calls keep -/

variable {sha256} {s s' : State} {c : Call} {host : Host}

/-- Turning passwords on or off touches no user and no key. -/
theorem setPassword_host (answers : PasswordAnswers) (enabled : Bool) (host : Host) :
    ∃ hardening, (setPasswordAuthentication answers enabled host).2 =
      { host with hardening := hardening } := by
  unfold setPasswordAuthentication
  dsimp only
  repeat' split
  all_goals exact ⟨_, rfl⟩

theorem setPassword_ok {answers : PasswordAnswers} {enabled : Bool}
    (h : (setPasswordAuthentication answers enabled host).1 = .ok ()) :
    checkPassword answers enabled host = .ok () ∧ answers.takesEffect enabled = true := by
  unfold setPasswordAuthentication at h
  split at h
  · cases h
  rename_i hcheck
  split at h
  · cases h
  rename_i hmkdir
  dsimp only at h
  split at h
  · cases h
  rename_i hwrite
  split at h
  · cases h
  rename_i hvalidate
  split at h
  · cases h
  rename_i hservice
  split at h
  · cases h
  rename_i hreload
  split at h
  · cases h
  rename_i hafter
  refine ⟨hcheck, ?_⟩
  simp only [not_or, Bool.not_eq_true', Bool.not_eq_false, not_not] at hafter
  simp [PasswordAnswers.takesEffect, hmkdir, hwrite, hvalidate, hservice, hreload, hafter.1,
    hafter.2]

theorem generateKey_host (answers : GenerateAnswers) (username comment passphrase : String)
    (host : Host) :
    (generateKey sha256 answers username comment passphrase host).2 = host ∨ ∃ publicKey,
      (generateKey sha256 answers username comment passphrase host).2 =
        (Keys.addKey sha256 answers.add username publicKey host).2 := by
  unfold generateKey
  split
  · exact .inl rfl
  · rename_i privateKey publicKey _
    refine .inr ⟨publicKey, ?_⟩
    split <;> simp [*]

theorem useradd_passwd (useradd : Useradd) (host : Host) {entry : String}
    (h : entry ∈ host.passwd) : entry ∈ (useradd.apply host).passwd := by
  unfold Useradd.apply
  split
  · exact h
  dsimp only
  repeat' split
  all_goals exact List.mem_append_left _ h

/-- The skeleton is put where there was no file. -/
theorem useradd_keys (useradd : Useradd) (host : Host) (path : List String) {line : String}
    (h : line ∈ keysAt host path) : line ∈ keysAt (useradd.apply host) path := by
  unfold Useradd.apply
  split
  · exact h
  dsimp only
  split
  · split
    · rename_i hnone
      rw [keysAt_setFile]
      split
      · rename_i hpath
        rw [Option.isNone_iff_eq_none] at hnone
        rw [hpath, keysAt, hnone] at h
        cases h
      · exact h
    · exact h
  · exact h

/-- A new user takes no key away. -/
theorem KeyLogin.useradd (h : KeyLogin sha256 host) (useradd : Useradd) :
    KeyLogin sha256 (useradd.apply host) :=
  h.mono (fun _ => useradd_passwd useradd host) fun path _ => useradd_keys useradd host path

/-- A user that is spared still has its key. -/
theorem KeySpared.userdel {name : String} {userdel : Userdel}
    (h : KeySpared sha256 host name userdel) : KeyLogin sha256 (userdel.apply name host) := by
  obtain ⟨entry, hentry, hname, account, haccount, hpath, line, hline, hkey⟩ := h
  refine ⟨account, List.mem_filterMap.mpr ⟨entry, ?_, haccount⟩, line, ?_, hkey⟩
  · unfold Userdel.apply
    dsimp only
    split
    · rename_i hgone
      exact List.mem_filter.mpr ⟨hentry, by simpa using hname hgone⟩
    · exact hentry
  · simpa [keysAt, Userdel.apply, hpath] using hline

/-- A new user leaves a spared one its key. -/
theorem KeySpared.useradd {name : String} {userdel : Userdel}
    (h : KeySpared sha256 host name userdel) (useradd : Useradd) :
    KeySpared sha256 (useradd.apply host) name userdel := by
  obtain ⟨entry, hentry, hname, account, haccount, hpath, line, hline, hkey⟩ := h
  exact ⟨entry, useradd_passwd useradd host hentry, hname, account, haccount, hpath, line,
    useradd_keys useradd host _ hline, hkey⟩

/-- A deleted key leaves the key besides it. -/
theorem KeyBesides.deleted {path : List String} {id : String}
    (h : KeyBesides sha256 host path id) :
    KeyLogin sha256 (host.setFile path
      (keysContent ((keysAt host path).filter (!hasID sha256 id ·)))) := by
  obtain ⟨account, haccount, line, hline, hkey, hother⟩ := h
  refine ⟨account, haccount, line, ?_, hkey⟩
  rw [keysAt_deleted]
  split
  · rename_i hpath
    rw [hpath] at hline
    exact List.mem_filter.mpr ⟨hline, by simp [hother hpath]⟩
  · exact hline

theorem deleteKey_keeps (answers : KeyAnswers) (username id : String) (h : KeyLogin sha256 host)
    (hmeets : answers.read = none → answers.write = none → ∀ user,
      lookupUser answers.passwd host username = .ok user →
        KeyBesides sha256 host (keysPath user.home) id) :
    KeyLogin sha256 (Keys.deleteKey sha256 answers username id host).2 := by
  rcases deleteKey_host answers username id host with heq | ⟨user, hlookup, hread, hwrite, heq⟩
  · rwa [heq]
  · rw [heq]
    exact (hmeets hread hwrite user hlookup).deleted

/-- Creating a user adds to what there is, unless it takes the user back. -/
theorem createUser_host (answers : CreateAnswers) (name : String) (withSudo : Bool)
    (host : Host) :
    (createUser answers name withSudo host).2 = host ∨
    (createUser answers name withSudo host).2 = answers.useradd.apply host ∨
    rollsBack answers name withSudo host = true ∧
      (createUser answers name withSudo host).2 =
        answers.userdel.apply (trimSpace name) (answers.useradd.apply host) := by
  unfold createUser rollsBack
  dsimp only
  split
  · exact .inl rfl
  rename_i hname
  split
  · exact .inl rfl
  rename_i hknown
  split
  · exact .inr (.inl rfl)
  rename_i herr
  split
  · exact .inr (.inl rfl)
  · rename_i hread
    exact .inr (.inr ⟨by simp [hname, hknown, herr, hread, Except.toOption], rfl⟩)

/-- Deleting a user does what `userdel` does, or nothing changes. -/
theorem deleteUser_host (answers : DeleteAnswers) (name : String) (host : Host) :
    (deleteUser answers name host).2 = host ∨ callsUserdel answers name = true ∧
      (deleteUser answers name host).2 = answers.userdel.apply (trimSpace name) host := by
  unfold deleteUser callsUserdel
  dsimp only
  split
  · exact .inl rfl
  rename_i hname
  split
  · exact .inl rfl
  rename_i uid huid
  split
  · exact .inl rfl
  rename_i hsystem
  split
  · exact .inl rfl
  rename_i hprocesses
  have hcalls : (!isProtected (trimSpace name) && answers.uid.any (1000 ≤ ·) &&
      trimSpace answers.processes = "") = true := by
    simp only [ne_eq, not_not] at hprocesses
    simp [hname, huid, hprocesses]
    omega
  split <;> exact .inr ⟨hcalls, rfl⟩

/-! ## Runs -/

theorem step_eq (h : step sha256 s c = some s') :
    s' = ⟨c.perform sha256 s.host, disabledAfter s c⟩ := by
  unfold step at h
  split at h
  · exact (Option.some.inj h).symm
  · cases h

/-- One call: a key to log in with is there after it, if it was before or had to be. -/
theorem perform_keeps (h : s.disabled = true → KeyLogin sha256 s.host) (hmeets : Meets sha256 s c)
    (hdisabled : disabledAfter s c = true) : KeyLogin sha256 (c.perform sha256 s.host) := by
  cases c with
  | setPassword answers enabled =>
    obtain ⟨hardening, heq⟩ := setPassword_host answers enabled s.host
    have hkept : KeyLogin sha256 s.host := by
      simp only [disabledAfter] at hdisabled
      split at hdisabled
      · rename_i hok
        obtain ⟨hcheck, heffect⟩ := setPassword_ok hok
        exact hmeets (by simpa using hdisabled) hcheck heffect
      · exact h hdisabled
    show KeyLogin sha256 (setPasswordAuthentication answers enabled s.host).2
    rw [heq]
    exact hkept.mono (fun _ => id) fun _ _ => id
  | addKey answers username value => exact addKey_keeps answers username value (h hdisabled)
  | generateKey answers username comment passphrase =>
    show KeyLogin sha256
      (PasswordLogin.generateKey sha256 answers username comment passphrase s.host).2
    rcases generateKey_host answers username comment passphrase s.host with heq | ⟨key, heq⟩
    · rw [heq]
      exact h hdisabled
    · rw [heq]
      exact addKey_keeps answers.add username key (h hdisabled)
  | deleteKey answers username id =>
    exact deleteKey_keeps answers username id (h hdisabled) (hmeets hdisabled)
  | createUser answers name withSudo =>
    show KeyLogin sha256 (PasswordLogin.createUser answers name withSudo s.host).2
    rcases createUser_host answers name withSudo s.host with heq | heq | ⟨hrolls, heq⟩
    · rw [heq]
      exact h hdisabled
    · rw [heq]
      exact KeyLogin.useradd (h hdisabled) answers.useradd
    · rw [heq]
      exact ((hmeets hdisabled hrolls).useradd answers.useradd).userdel
  | deleteUser answers name =>
    show KeyLogin sha256 (PasswordLogin.deleteUser answers name s.host).2
    rcases deleteUser_host answers name s.host with heq | ⟨hcalls, heq⟩
    · rw [heq]
      exact h hdisabled
    · rw [heq]
      exact (hmeets hdisabled hcalls).userdel

/-- **While passwords are off because the panel turned them off, some user that can log in has a
line that parses as a public key, in every state reached by calls that meet the condition.** -/
theorem disabled_keeps_key {start s : State} (hstart : start.disabled = false)
    (hreach : Machine.Reaches (step sha256) (Meets sha256) start s) (h : s.disabled = true) :
    KeyLogin sha256 s.host := by
  refine hreach.invariant (P := fun s => s.disabled = true → KeyLogin sha256 s.host)
    (by simp [hstart]) ?_ h
  intro s c s' hinv hmeets hstep hdisabled
  rw [step_eq hstep] at hdisabled ⊢
  exact perform_keeps hinv hmeets hdisabled

/-! ## Concrete runs -/

def rootOnly (keys : String) : State :=
  ⟨⟨["root:x:0:0:root:/root:/bin/bash"], fun path =>
    if path = ["root", ".ssh", "authorized_keys"] then some keys else none, none⟩, false⟩

def works : KeyAnswers := ⟨none, none, none, none⟩

def turnsOff : PasswordAnswers :=
  ⟨true, true, none, fun _ => none, .ok "port 22\npubkeyauthentication yes\n", none, none,
    ⟨none, none, "ssh", none⟩, none, none, .ok "port 22\npasswordauthentication no\n"⟩

/-- The digests of the two keys that the run below uses. -/
def digest (blob : List UInt8) : List UInt8 :=
  if blob.head? = some 1 then
    [93, 251, 171, 238, 223, 49, 139, 243, 60, 9, 39, 196, 61, 118, 48, 245, 27, 130, 243, 81, 116,
      3, 1, 53, 79, 163, 215, 252, 81, 240, 19, 46]
  else
    [200, 106, 248, 189, 52, 166, 59, 95, 150, 20, 108, 103, 228, 33, 12, 186, 232, 47, 6, 168, 140,
      41, 165, 106, 210, 183, 212, 29, 38, 103, 30, 60]

/-- The older of two keys is deleted after passwords are turned off. -/
theorem second_key_stays : ∃ s,
    Machine.Reaches (step digest) (Meets digest)
      (rootOnly "ssh-ed25519 AQIDBAUGBwgJCgsMDQ4PEA==\n") s ∧
    s.disabled = true ∧ KeyLogin digest s.host := by
  have hrun : (Machine.runIf (step digest) (fun s c => decide (Meets digest s c))
      (rootOnly "ssh-ed25519 AQIDBAUGBwgJCgsMDQ4PEA==\n")
      [.addKey works "root" "ssh-ed25519 AgMEBQYHCAkKCwwNDg8QEQ== laptop",
        .setPassword turnsOff false,
        .deleteKey works "root" "Xfur7t8xi_M8CSfE"]).map State.disabled = some true := by
    decide +kernel
  obtain ⟨s, hs, hdisabled⟩ := Option.map_eq_some_iff.mp hrun
  have hreach := Machine.reaches_of_runIf (fun _ _ h => of_decide_eq_true h) hs
  exact ⟨s, hreach, hdisabled, disabled_keeps_key rfl hreach hdisabled⟩

/-- A line that is no key counts as one when passwords are turned off. -/
theorem broken_line_turns_passwords_off : ∃ s,
    Machine.Reaches (step digest) Machine.Free (rootOnly "ssh-ed25519\n") s ∧
    s.disabled = true ∧ ¬ KeyLogin digest s.host := by
  have hrun : (Machine.run (step digest) (rootOnly "ssh-ed25519\n")
      [.setPassword turnsOff false]).map (fun s => (s.disabled, decide (KeyLogin digest s.host))) =
      some (true, false) := by decide +kernel
  obtain ⟨s, hs, hval⟩ := Option.map_eq_some_iff.mp hrun
  obtain ⟨hdisabled, hkey⟩ := Prod.mk.inj hval
  exact ⟨s, Machine.reaches_of_run hs, hdisabled, of_decide_eq_false hkey⟩

end LukePanel.SshAdmin.PasswordLogin
