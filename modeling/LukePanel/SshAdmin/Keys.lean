import LukePanel.Library.Base64
import LukePanel.Library.GoStrings
import LukePanel.Library.SlashPath
import Mathlib.Logic.Function.Basic

/-! # The keys of the login users

The users of `/etc/passwd` that can log in and their `authorized_keys`, as
`internal/sshadmin/manager.go` reads and writes them. -/
namespace LukePanel.SshAdmin.Keys
open LukePanel.Library LukePanel.Library.GoStrings
open LukePanel.Library.SlashPath (clean)

/-! ## Public keys -/

structure Key where
  id : String
  type : String
  fingerprint : String
  comment : String
  preview : String

def allowedTypes : List String :=
  ["ssh-ed25519", "ssh-rsa", "ecdsa-sha2-nistp256", "ecdsa-sha2-nistp384", "ecdsa-sha2-nistp521",
    "sk-ssh-ed25519@openssh.com", "sk-ecdsa-sha2-nistp256@openssh.com"]

def keyPreview (text : String) : String :=
  let chars := text.toList
  if 18 < chars.length then
    String.ofList (chars.take 10 ++ ['…'] ++ chars.drop (chars.length - 7))
  else text

variable (sha256 : List UInt8 → List UInt8)

def parseKey (line : String) : Except String Key :=
  let fields := fields (trimSpace line)
  if fields.length < 2 then .error "公钥格式不完整"
  else match fields.dropWhile (· ∉ allowedTypes) with
    | type :: encoded :: comment =>
      match Base64.decodePadded encoded with
      | none => .error "公钥内容无效"
      | some blob =>
        if blob.length < 16 then .error "公钥内容无效"
        else
          let sum := sha256 blob
          .ok ⟨Base64.encodeURLString (sum.take 12), type,
            "SHA256:" ++ Base64.encodeToString sum, join ' ' comment, keyPreview encoded⟩
    | _ => .error "暂不支持这种公钥类型"

/-! ## The file of a user -/

/-- The longest line `readKeys` scans, with its end, is 1 MiB. -/
def scannable (line : String) : Bool := line.utf8ByteSize < 1048576

inductive ReadError where
  | notExist | tooLong | failed (message : String)

/-- The lines of a file that are neither blank nor comments. -/
def keyLines (lines : List String) : List String :=
  (lines.map trimSpace).filter fun line => line ≠ "" ∧ line.toList.head? ≠ some '#'

/-- `readKeys`: the lines, and what ended the scan early. A read that fails does so after some
number of lines. -/
def readKeys (fault : Option (Nat × String)) (file : Option String) :
    List String × Option ReadError :=
  match file with
  | none => ([], some .notExist)
  | some content =>
    let lines := split '\n' content
    match fault with
    | some (n, message) => (keyLines ((lines.takeWhile scannable).take n), some (.failed message))
    | none => (keyLines (lines.takeWhile scannable),
        if lines.all scannable then none else some .tooLong)

/-- What `writeKeys` puts in place of the file. -/
def keysContent (lines : List String) : String := if lines = [] then "" else join '\n' lines ++ "\n"

/-! ## Login users -/

structure Account where
  name : String
  uid : Int
  gid : Int
  home : List String
  shell : String

/-- A line of `/etc/passwd`, if its user can log in. -/
def parseAccount (line : String) : Option Account :=
  if line = "" ∨ line.toList.head? = some '#' then none
  else match split ':' line with
    | name :: _ :: uid :: gid :: _ :: home :: shell :: _ =>
      match parseInt uid, parseInt gid with
      | some uid, some gid =>
        if uid ≠ 0 ∧ uid < 1000 then none
        else if hasSuffix shell "/nologin" ∨ hasSuffix shell "/false" then none
        else if (clean home).rooted then some ⟨name, uid, gid, (clean home).parts, shell⟩
        else none
      | _, _ => none
    | _ => none

/-- `filepath.Join(home, ".ssh", "authorized_keys")` -/
def keysPath (home : List String) : List String := home ++ [".ssh", "authorized_keys"]

/-- The lines of `/etc/passwd`, and the files by the elements of their paths. -/
structure Host where
  passwd : List String
  files : List String → Option String
  hardening : Option String

def Host.setFile (host : Host) (path : List String) (content : String) : Host :=
  { host with files := Function.update host.files path (some content) }

structure User extends Account where
  keyCount : Nat

/-- `Users`, up to their order. The key files are read with the given faults. -/
def users (faults : List String → Option (Nat × String)) (host : Host) : List User :=
  (host.passwd.filterMap parseAccount).map fun account =>
    ⟨account, (readKeys (faults (keysPath account.home))
      (host.files (keysPath account.home))).1.length⟩

def lookupUser (passwdFault : Option String) (host : Host) (username : String) :
    Except String User :=
  if username = "" ∨ containsAny username ['/', '\\', ':', '\x00', '\r', '\n'] then
    .error "invalid username"
  else match passwdFault with
    | some err => .error err
    | none =>
      match (users (fun _ => none) host).find? (·.name = username) with
      | some user => .ok user
      | none => .error "用户不存在或不允许登录"

/-! ## Adding and deleting a key -/

/-- How the calls fail, if they do. What `writeKeys` does before it renames changes nothing. -/
structure KeyAnswers where
  passwd : Option String
  mkdir : Option String
  read : Option (Nat × String)
  write : Option String

def ReadError.message : ReadError → String
  | .notExist => "file does not exist"
  | .tooLong => "bufio.Scanner: token too long"
  | .failed message => message

def writeKeys (fault : Option String) (path : List String) (lines : List String) (host : Host) :
    Except String Unit × Host :=
  match fault with
  | some err => (.error err, host)
  | none => (.ok (), host.setFile path (keysContent lines))

def hasID (id : String) (line : String) : Bool :=
  match parseKey sha256 line with
  | .ok key => key.id = id
  | .error _ => false

def addKey (answers : KeyAnswers) (username value : String) (host : Host) :
    Except String Key × Host :=
  match lookupUser answers.passwd host username with
  | .error err => (.error err, host)
  | .ok user =>
    let line := trimSpace value
    match parseKey sha256 line with
    | .error err => (.error err, host)
    | .ok key =>
      let path := keysPath user.home
      match answers.mkdir with
      | some err => (.error err, host)
      | none =>
        match readKeys answers.read (host.files path) with
        | (_, some .tooLong) => (.error ReadError.tooLong.message, host)
        | (_, some (.failed message)) => (.error message, host)
        | (lines, _) =>
          if lines.any (hasID sha256 key.id) then (.error "这把公钥已经存在", host)
          else
            match writeKeys answers.write path (lines ++ [line]) host with
            | (.error err, host) => (.error err, host)
            | (.ok _, host) => (.ok key, host)

def deleteKey (answers : KeyAnswers) (username id : String) (host : Host) :
    Except String Unit × Host :=
  match lookupUser answers.passwd host username with
  | .error err => (.error err, host)
  | .ok user =>
    let path := keysPath user.home
    match readKeys answers.read (host.files path) with
    | (_, some err) => (.error err.message, host)
    | (lines, none) =>
      if lines.any (hasID sha256 id) then
        writeKeys answers.write path (lines.filter (!hasID sha256 id ·)) host
      else (.error "未找到这把公钥", host)

/-! ## Reading back what was written -/

/-- A line as `readKeys` returns it. -/
structure KeyLine (line : String) : Prop where
  trimmed : trimSpace line = line
  nonempty : line ≠ ""
  no_comment : line.toList.head? ≠ some '#'
  no_newline : '\n' ∉ line.toList
  scannable : scannable line = true

variable {sha256} {lines : List String} {content line : String}

theorem keyLine_of_mem (h : line ∈ keyLines ((split '\n' content).takeWhile scannable)) :
    KeyLine line := by
  obtain ⟨hmem, hkept⟩ := List.mem_filter.mp h
  obtain ⟨raw, hraw, rfl⟩ := List.mem_map.mp hmem
  have hsplit := (List.takeWhile_prefix scannable).mem hraw
  have hscan := List.mem_takeWhile_imp hraw
  have hkept : trimSpace raw ≠ "" ∧ (trimSpace raw).toList.head? ≠ some '#' := by simpa using hkept
  refine ⟨trimSpace_trimSpace raw, hkept.1, hkept.2,
    fun hn => sep_not_mem_of_mem_split hsplit (mem_of_mem_trimSpace hn), ?_⟩
  have hsize := utf8ByteSize_trimSpace_le raw
  simp only [scannable, decide_eq_true_eq] at hscan ⊢
  omega

theorem keyLines_eq_self (h : ∀ line ∈ lines, KeyLine line) : keyLines lines = lines := by
  have hmap : lines.map trimSpace = lines := by
    rw [List.map_congr_left fun line hline => (h line hline).trimmed, List.map_id']
  rw [keyLines, hmap]
  exact List.filter_eq_self.mpr fun line hline => by
    simp [(h line hline).nonempty, (h line hline).no_comment]

theorem keyLines_append (a b : List String) : keyLines (a ++ b) = keyLines a ++ keyLines b := by
  simp [keyLines]

theorem takeWhile_scannable_append (h : ∀ line ∈ lines, KeyLine line) (rest : List String) :
    (lines ++ rest).takeWhile scannable = lines ++ rest.takeWhile scannable :=
  List.takeWhile_append_of_pos fun line hline => (h line hline).scannable

/-- Reading key lines back, and whatever was written after them. -/
theorem readKeys_append (h : ∀ line ∈ lines, KeyLine line) (last : String) :
    (readKeys none (some (keysContent (lines ++ [last])))).1 =
      lines ++ keyLines ((split '\n' last ++ [""]).takeWhile scannable) := by
  have hne : lines ++ [last] ≠ [] := by simp
  have hnewline : "\n" = String.ofList ['\n'] := rfl
  simp only [readKeys, keysContent, if_neg hne]
  rw [hnewline, split_append_sep, split_join_concat last fun s hs => (h s hs).no_newline,
    List.append_assoc, takeWhile_scannable_append h, keyLines_append, keyLines_eq_self h]

theorem readKeys_keysContent (h : ∀ line ∈ lines, KeyLine line) :
    (readKeys none (some (keysContent lines))).1 = lines := by
  rcases List.eq_nil_or_concat lines with rfl | ⟨init, last, rfl⟩
  · decide
  · rw [List.concat_eq_append] at h ⊢
    rw [List.forall_mem_append] at h
    have hlast := h.2 last List.mem_cons_self
    have hsplit : split '\n' last = [last] := by
      simp [split, List.splitOn_eq_singleton hlast.no_newline]
    have hscan : (split '\n' last ++ [""]).takeWhile scannable = [last] ++ [""] := by
      rw [hsplit, takeWhile_scannable_append h.2]
      rfl
    rw [readKeys_append h.1, hscan, keyLines_append, keyLines_eq_self h.2]
    rfl

/-! ## What the operations leave -/

variable (sha256)

def isKey (line : String) : Bool := (parseKey sha256 line).toOption.isSome

/-- The lines of the key file at a path. -/
def keysAt (host : Host) (path : List String) : List String := (readKeys none (host.files path)).1

/-- **Some user that can log in has a line that parses as a public key.** -/
def KeyLogin (host : Host) : Prop :=
  ∃ account ∈ host.passwd.filterMap parseAccount,
    ∃ line ∈ keysAt host (keysPath account.home), isKey sha256 line = true

variable {sha256} {host host' : Host} {path : List String}

theorem keyLine_of_mem_keysAt (h : line ∈ keysAt host path) : KeyLine line := by
  unfold keysAt readKeys at h
  cases hfile : host.files path with
  | none => simp [hfile] at h
  | some content =>
    rw [hfile] at h
    exact keyLine_of_mem h

/-- A scan that is not cut short reads every line. -/
theorem readKeys_eq_keysAt {fault : Option (Nat × String)} {ended : Option ReadError}
    (h : readKeys fault (host.files path) = (lines, ended))
    (hended : ∀ message, ended ≠ some (.failed message)) : lines = keysAt host path := by
  unfold keysAt
  cases hfile : host.files path with
  | none =>
    simp only [hfile, readKeys, Prod.mk.injEq] at h
    exact h.1.symm
  | some content =>
    cases fault with
    | none =>
      rw [hfile] at h
      rw [h]
    | some fault =>
      simp only [hfile, readKeys, Prod.mk.injEq] at h
      exact absurd h.2.symm (hended _)

theorem fault_eq_none {fault : Option (Nat × String)} {file : Option String}
    (h : readKeys fault file = (lines, none)) : fault = none := by
  cases file with
  | none => cases h
  | some content =>
    cases fault with
    | none => rfl
    | some fault => cases h

theorem KeyLogin.mono (h : KeyLogin sha256 host)
    (hpasswd : ∀ line ∈ host.passwd, line ∈ host'.passwd)
    (hkeys : ∀ path, ∀ line ∈ keysAt host path, line ∈ keysAt host' path) :
    KeyLogin sha256 host' := by
  obtain ⟨account, haccount, line, hline, hkey⟩ := h
  obtain ⟨entry, hentry, hparse⟩ := List.mem_filterMap.mp haccount
  exact ⟨account, List.mem_filterMap.mpr ⟨entry, hpasswd entry hentry, hparse⟩, line,
    hkeys _ line hline, hkey⟩

theorem keysAt_setFile (content : String) (other : List String) :
    keysAt (host.setFile path content) other =
      if other = path then (readKeys none (some content)).1 else keysAt host other := by
  unfold keysAt Host.setFile
  by_cases h : other = path <;> simp [h]

/-- A key is added behind the lines there were, or nothing changes. -/
theorem addKey_host (answers : KeyAnswers) (username value : String) (host : Host) :
    (addKey sha256 answers username value host).2 = host ∨ ∃ path,
      (addKey sha256 answers username value host).2 =
        host.setFile path (keysContent (keysAt host path ++ [trimSpace value])) := by
  unfold addKey
  split
  · exact .inl rfl
  rename_i user _
  dsimp only
  split
  · exact .inl rfl
  split
  · exact .inl rfl
  split
  · exact .inl rfl
  · exact .inl rfl
  rename_i lines ended _ hfailed hread
  split
  · exact .inl rfl
  cases hwrite : answers.write with
  | some err => exact .inl rfl
  | none =>
    have hlines := readKeys_eq_keysAt hread fun message hm => hfailed message hm
    exact .inr ⟨keysPath user.home, by rw [← hlines]; rfl⟩

/-- A key that is added leaves every line there was. -/
theorem addKey_keeps (answers : KeyAnswers) (username value : String) (h : KeyLogin sha256 host) :
    KeyLogin sha256 (addKey sha256 answers username value host).2 := by
  rcases addKey_host answers username value host with heq | ⟨path, heq⟩
  · rwa [heq]
  · rw [heq]
    refine h.mono (fun _ => id) fun other line hline => ?_
    rw [keysAt_setFile]
    split
    · rename_i hpath
      rw [readKeys_append fun _ => keyLine_of_mem_keysAt]
      exact List.mem_append_left _ (hpath ▸ hline)
    · exact hline

/-- Deleting a key leaves the lines of the file that are not it, or nothing changes. -/
theorem deleteKey_host (answers : KeyAnswers) (username id : String) (host : Host) :
    (deleteKey sha256 answers username id host).2 = host ∨ ∃ user,
      lookupUser answers.passwd host username = .ok user ∧
      answers.read = none ∧ answers.write = none ∧
      (deleteKey sha256 answers username id host).2 = host.setFile (keysPath user.home)
        (keysContent ((keysAt host (keysPath user.home)).filter (!hasID sha256 id ·))) := by
  unfold deleteKey
  split
  · exact .inl rfl
  rename_i user hlookup
  dsimp only
  split
  · exact .inl rfl
  rename_i lines hread
  split
  · cases hwrite : answers.write with
    | some err => exact .inl rfl
    | none =>
      have hlines := readKeys_eq_keysAt hread nofun
      exact .inr ⟨user, hlookup, fault_eq_none hread, rfl, by rw [← hlines]; rfl⟩
  · exact .inl rfl

/-- The lines that are left after a key is deleted. -/
theorem keysAt_deleted {id : String} (other : List String) :
    keysAt (host.setFile path
      (keysContent ((keysAt host path).filter (!hasID sha256 id ·)))) other =
      if other = path then (keysAt host path).filter (!hasID sha256 id ·)
      else keysAt host other := by
  rw [keysAt_setFile, readKeys_keysContent fun _ hline =>
    keyLine_of_mem_keysAt (List.mem_of_mem_filter hline)]

end LukePanel.SshAdmin.Keys
