import LukePanel.DockerApi.EditSpec
import LukePanel.Library.SlashPath
import Mathlib.Algebra.GroupWithZero.Nat
import Mathlib.Data.List.Perm.Subperm
import Mathlib.Logic.Function.Basic

/-! # Saving the configuration of a Compose project

The PUT of `dockerComposeConfig` of `internal/agent/server.go`: `Create` of
`internal/snapshots/manager.go` takes a snapshot of the project's files, `WriteComposeConfig` of
`internal/dockerapi/client.go` writes them one after another, and `Restore` puts the snapshot back
if that fails. The files are regular files under different paths. -/
namespace LukePanel.Agent.ComposeSave
open LukePanel.DockerApi.EditSpec (splitComposeFiles)
open LukePanel.Library.GoStrings LukePanel.Library.SlashPath

abbrev Bytes := List UInt8

/-- The contents of the files there are. -/
abbrev Files := String → Option Bytes

/-- `filepath.Clean` -/
def cleaned (path : String) : String := (clean path).text

theorem cleaned_cleaned (path : String) : cleaned (cleaned path) = cleaned path := by
  unfold cleaned
  rw [clean_text]

/-- A project; the paths of its files were cleaned when they were read off its label. -/
structure ComposeProject where
  name : String
  configFiles : List String
  clean : ∀ path ∈ configFiles, cleaned path = path

/-- The project of a container with the label. -/
def ComposeProject.ofLabel (name label : String) : ComposeProject where
  name := name
  configFiles := splitComposeFiles label
  clean path hpath := by
    obtain ⟨part, _, rfl⟩ := List.mem_map.mp (List.mem_of_mem_filter hpath)
    exact cleaned_cleaned _

/-- The map of files in the order in which it is ranged over. -/
structure ComposeSaveRequest where
  files : List (String × Bytes)
  distinct : (files.map (·.1)).Nodup
  deploy : Bool

/-- An element of the map, or the empty text. -/
def ComposeSaveRequest.content (request : ComposeSaveRequest) (path : String) : Bytes :=
  (request.files.lookup path).getD []

/-! ## Snapshots -/

/-- A path in a snapshot, with its content if there was a file. -/
structure Item where
  original : String
  content : Option Bytes

structure Snapshot where
  id : String
  name : String
  createdAt : ℕ
  items : List Item

structure State where
  files : Files
  snapshots : List Snapshot

/-- `sort.Slice` by `CreatedAt`; equal times come in any order. -/
structure NewestFirst where
  sort : List Snapshot → List Snapshot
  perm : ∀ l, (sort l).Perm l
  sorted : ∀ l, (sort l).Pairwise fun a b => b.createdAt ≤ a.createdAt

/-- The time with its text, and the errors of the operations that fail: on the directory, on the
item of an index, on `snapshot.json`, and on the list that is pruned. A pruned snapshot `remains` if
it cannot be removed. -/
structure CreateAnswers where
  id : String
  now : ℕ
  mkdir : Option String
  item : ℕ → Option String
  save : Option String
  list : Option String
  remains : Snapshot → Bool

/-- The path that is recorded. -/
def original (raw : String) : String := cleaned (trimSpace raw)

/-- Not absolute, the root, or with a NUL. -/
def invalid (path : String) : Bool :=
  path.toList.head? ≠ some '/' || path = "/" || '\x00' ∈ path.toList

def createItems (files : Files) (fails : ℕ → Option String) :
    ℕ → List String → Except String (List Item)
  | _, [] => .ok []
  | index, raw :: rest =>
    if invalid (original raw) then .error ("快照路径无效: " ++ raw)
    else
      match fails index with
      | some err => .error err
      | none => (createItems files fails (index + 1) rest).map (⟨original raw, files (original raw)⟩ :: ·)

def maxSnapshots : ℕ := 80

def prune (newest : NewestFirst) (c : CreateAnswers) (snapshots : List Snapshot) : List Snapshot :=
  match c.list with
  | some _ => snapshots
  | none =>
    (newest.sort snapshots).take maxSnapshots ++
      ((newest.sort snapshots).drop maxSnapshots).filter c.remains

def labelled (name : String) : String :=
  if trimSpace name = "" then "配置快照" else trimSpace name

/-- A snapshot of the kind `compose`, without a note. -/
def create (newest : NewestFirst) (c : CreateAnswers) (name : String) (paths : List String)
    (s : State) : Except String Snapshot × State :=
  if 120 < (labelled name).utf8ByteSize then (.error "快照名称或说明过长", s)
  else if paths.length = 0 ∨ 32 < paths.length then (.error "快照路径数量无效", s)
  else
    match c.mkdir with
    | some err => (.error err, s)
    | none =>
      -- A snapshot of the same text of the time is in the way, and goes.
      let others := s.snapshots.filter (·.id ≠ c.id)
      match createItems s.files c.item 0 paths with
      | .error err => (.error err, { s with snapshots := others })
      | .ok items =>
        match c.save with
        | some err => (.error err, { s with snapshots := others })
        | none =>
          let snapshot : Snapshot := ⟨c.id, labelled name, c.now, items⟩
          (.ok snapshot, { s with snapshots := prune newest c (others ++ [snapshot]) })

/-- The error if a file cannot be removed, and what a copy that fails leaves in its place, with the
error. -/
structure PutAnswers where
  remove : Option String
  copy : Option (Option Bytes × String)

/-- The errors of the operations of `Restore`: of the load, on the directory for the roll back, on the
copy of the file of an index into it, on the item of an index, and on the way back. -/
structure RestoreAnswers where
  load : Option String
  mkdirTemp : Option String
  copy : ℕ → Option String
  put : ℕ → PutAnswers
  back : ℕ → PutAnswers

def restoreItem (r : PutAnswers) (files : Files) (item : Item) : Option String × Files :=
  match r.remove, item.content, r.copy with
  | some err, _, _ => (some err, files)
  | none, none, _ => (none, Function.update files item.original none)
  | none, some content, none => (none, Function.update files item.original (some content))
  | none, some _, some (left, err) => (some err, Function.update files item.original left)

/-- The loop that stops at the first error. -/
def restoreItems (r : ℕ → PutAnswers) : ℕ → List Item → Files → Option String × Files
  | _, [], files => (none, files)
  | index, item :: rest, files =>
    match restoreItem (r index) files item with
    | (some err, files) => (some err, files)
    | (none, files) => restoreItems r (index + 1) rest files

/-- A copy goes over a file that could not be removed. -/
def rollBackItem (r : PutAnswers) (files : Files) (rb : Item) : Files :=
  let files := if r.remove = none then Function.update files rb.original none else files
  match rb.content, r.copy with
  | none, _ => files
  | some content, none => Function.update files rb.original (some content)
  | some _, some (left, _) => Function.update files rb.original left

def rollBack (r : ℕ → PutAnswers) : ℕ → List Item → Files → Files
  | _, [], files => files
  | index, rb :: rest, files => rollBack r (index + 1) rest (rollBackItem (r index) files rb)

/-- The files as they are, for the roll back. -/
def currentItems (files : Files) (fails : ℕ → Option String) :
    ℕ → List Item → Except String (List Item)
  | _, [] => .ok []
  | index, item :: rest =>
    match fails index with
    | some err => .error err
    | none =>
      (currentItems files fails (index + 1) rest).map (⟨item.original, files item.original⟩ :: ·)

/-- The error, which nobody reads, and what is left. -/
def restore (r : RestoreAnswers) (id : String) (s : State) : Option String × State :=
  match s.snapshots.find? (·.id = id), r.load with
  | none, _ => (some "快照不存在或已损坏", s)
  | some _, some err => (some err, s)
  | some snapshot, none =>
    match r.mkdirTemp with
    | some err => (some err, s)
    | none =>
      match currentItems s.files r.copy 0 snapshot.items with
      | .error err => (some err, s)
      | .ok rollback =>
        match restoreItems r.put 0 snapshot.items s.files with
        | (none, files) => (none, { s with files := files })
        | (some err, files) =>
          (some ("恢复失败，已尝试回滚: " ++ err), { s with files := rollBack r.back 0 rollback files })

/-! ## Writing -/

/-- The error of the second look for the project, those of the operations on the file of an index
from `os.Stat` to `os.Rename`, and what the two commands return. -/
structure WriteAnswers where
  project : Option String
  file : ℕ → Option String
  config : String × Option String
  up : String × Option String

/-- The loop over the submitted files; `total` is what was added up. -/
def checkFiles (allowed : List String) : List (String × Bytes) → ℕ → Except String ℕ
  | [], total => .ok total
  | (rawPath, content) :: rest, total =>
    if cleaned rawPath ∉ allowed then .error ("不允许修改项目之外的文件: " ++ rawPath)
    else if 2097152 < content.length then .error ("Compose 文件超过 2MB: " ++ rawPath)
    else checkFiles allowed rest (total + content.length)

/-- The loop over the project's files; `os.Stat` fails for a file that is not there. -/
def writeFiles (request : ComposeSaveRequest) (fails : ℕ → Option String) :
    ℕ → List String → Files → Option String × Files
  | _, [], files => (none, files)
  | index, path :: rest, files =>
    match fails index with
    | some err => (some err, files)
    | none =>
      if files path = none then (some ("stat " ++ path ++ ": no such file or directory"), files)
      else
        writeFiles request fails (index + 1) rest
          (Function.update files path (some (request.content (cleaned path))))

/-- The output, and the error. -/
def writeComposeConfig (project : ComposeProject) (request : ComposeSaveRequest) (a : WriteAnswers)
    (files : Files) : (String × Option String) × Files :=
  match a.project with
  | some err => (("", some err), files)
  | none =>
    if request.files.length = 0 ∨ request.files.length ≠ project.configFiles.length then
      (("", some "必须提交项目的全部 Compose 配置文件"), files)
    else
      match checkFiles (project.configFiles.map cleaned) request.files 0 with
      | .error err => (("", some err), files)
      | .ok total =>
        if 4194304 < total then (("", some "Compose 配置总大小超过 4MB"), files)
        else
          match writeFiles request a.file 0 project.configFiles files with
          | (some err, files) => (("", some err), files)
          | (none, files) =>
            match a.config with
            | (output, some err) => ((output, some ("Compose 配置校验失败: " ++ err)), files)
            | (output, none) =>
              if request.deploy then
                let output := trimSpace (output ++ "\n" ++ a.up.1)
                match a.up.2 with
                | some err => ((output, some ("配置已保存，但重新部署失败: " ++ err)), files)
                | none => ((output, none), files)
              else ((output, none), files)

/-! ## The endpoint -/

inductive Answer where
  | refused (err : String)
  | failed (err output snapshotID : String)
  | saved (output snapshotID : String)

def Answer.isSaved : Answer → Bool
  | .saved _ _ => true
  | .refused _ | .failed _ _ _ => false

def snapshotName (project : ComposeProject) : String := "Compose 保存前: " ++ project.name

def dockerComposeConfig (newest : NewestFirst) (project : Except String ComposeProject)
    (request : ComposeSaveRequest) (c : CreateAnswers) (a : WriteAnswers) (r : RestoreAnswers)
    (s : State) : Answer × State :=
  match project with
  | .error err => (.refused err, s)
  | .ok project =>
    match create newest c (snapshotName project) project.configFiles s with
    | (.error err, s) => (.refused ("创建快照失败: " ++ err), s)
    | (.ok snapshot, s) =>
      match writeComposeConfig project request a s.files with
      | ((output, some err), files) =>
        (.failed err output snapshot.id, (restore r snapshot.id { s with files := files }).2)
      | ((output, none), files) => (.saved output snapshot.id, { s with files := files })

/-! ## What each step does -/

variable {newest : NewestFirst} {project : ComposeProject} {request : ComposeSaveRequest}
  {c : CreateAnswers} {a : WriteAnswers} {r : RestoreAnswers} {s : State} {files : Files}
  {paths : List String}

/-- Each path can be recorded, from the index on. -/
def Recorded (fails : ℕ → Option String) (index : ℕ) (paths : List String) : Prop :=
  ∀ i raw, paths[i]? = some raw → invalid (original raw) = false ∧ fails (index + i) = none

theorem recorded_cons {fails : ℕ → Option String} {index : ℕ} {raw : String} :
    Recorded fails index (raw :: paths) ↔
      (invalid (original raw) = false ∧ fails index = none) ∧ Recorded fails (index + 1) paths := by
  unfold Recorded
  constructor
  · intro h
    refine ⟨h 0 raw rfl, fun i raw' hraw => ?_⟩
    rw [Nat.add_right_comm]
    exact h (i + 1) raw' hraw
  · rintro ⟨hfirst, hrest⟩ i raw' hraw
    cases i with
    | zero =>
      obtain rfl : raw = raw' := Option.some.inj hraw
      exact hfirst
    | succ i =>
      rw [← Nat.add_assoc, Nat.add_right_comm]
      exact hrest i raw' hraw

theorem createItems_eq_ok {fails : ℕ → Option String} {index : ℕ} {items : List Item} :
    createItems files fails index paths = .ok items ↔ Recorded fails index paths ∧
      items = paths.map fun raw => ⟨original raw, files (original raw)⟩ := by
  induction paths generalizing index items with
  | nil =>
    rw [createItems, Except.ok.injEq]
    exact ⟨fun h => ⟨nofun, h.symm⟩, fun h => h.2.symm⟩
  | cons raw rest ih =>
    rw [createItems, recorded_cons]
    cases hinvalid : invalid (original raw) with
    | true => simp
    | false =>
      cases hfails : fails index with
      | some err => simp
      | none =>
        cases hrest : createItems files fails (index + 1) rest with
        | error err =>
          have hnot : ¬ Recorded fails (index + 1) rest := fun hrecorded => by
            rw [ih.mpr ⟨hrecorded, rfl⟩] at hrest
            cases hrest
          simp [Except.map, hnot]
        | ok others =>
          obtain ⟨hrecorded, rfl⟩ := ih.mp hrest
          simp [Except.map, hrecorded, eq_comm]

/-- Every check and operation of `create` succeeds. -/
structure Created (c : CreateAnswers) (name : String) (paths : List String) : Prop where
  name : (labelled name).utf8ByteSize ≤ 120
  nonempty : paths.length ≠ 0
  count : paths.length ≤ 32
  mkdir : c.mkdir = none
  items : Recorded c.item 0 paths
  save : c.save = none

def taken (c : CreateAnswers) (name : String) (paths : List String) (files : Files) : Snapshot :=
  ⟨c.id, labelled name, c.now, paths.map fun raw => ⟨original raw, files (original raw)⟩⟩

/-- The snapshots after one was taken. -/
def stored (newest : NewestFirst) (c : CreateAnswers) (name : String) (paths : List String)
    (s : State) : List Snapshot :=
  prune newest c (s.snapshots.filter (·.id ≠ c.id) ++ [taken c name paths s.files])

theorem create_ok {name : String} (h : Created c name paths) :
    create newest c name paths s =
      (.ok (taken c name paths s.files), { s with snapshots := stored newest c name paths s }) := by
  unfold create stored taken
  rw [if_neg (Nat.not_lt.mpr h.name), if_neg (not_or.mpr ⟨h.nonempty, Nat.not_lt.mpr h.count⟩), h.mkdir,
    createItems_eq_ok.mpr ⟨h.items, rfl⟩, h.save]

/-- No snapshot, no change of a file. -/
theorem create_error {name : String} (h : ¬ Created c name paths) :
    ∃ err snapshots, create newest c name paths s =
      (.error err, { s with snapshots := snapshots }) := by
  unfold create
  split
  · exact ⟨_, _, rfl⟩
  · rename_i hname
    split
    · exact ⟨_, _, rfl⟩
    · rename_i hcount
      rw [not_or] at hcount
      cases hmkdir : c.mkdir with
      | some err => exact ⟨_, _, rfl⟩
      | none =>
        cases hitems : createItems s.files c.item 0 paths with
        | error err => exact ⟨_, _, rfl⟩
        | ok items =>
          cases hsave : c.save with
          | some err => exact ⟨_, _, rfl⟩
          | none =>
            exact absurd ⟨Nat.not_lt.mp hname, hcount.1, Nat.not_lt.mp hcount.2, hmkdir,
              (createItems_eq_ok.mp hitems).1, hsave⟩ h

theorem checkFiles_eq_ok {allowed : List String} {submitted : List (String × Bytes)}
    {total sum : ℕ} : checkFiles allowed submitted total = .ok sum ↔
      (∀ file ∈ submitted, cleaned file.1 ∈ allowed ∧ file.2.length ≤ 2097152) ∧
      sum = total + (submitted.map (·.2.length)).sum := by
  induction submitted generalizing total with
  | nil =>
    rw [checkFiles, Except.ok.injEq]
    exact ⟨fun h => ⟨nofun, h.symm⟩, fun h => h.2.symm⟩
  | cons file rest ih =>
    obtain ⟨rawPath, content⟩ := file
    rw [checkFiles, List.forall_mem_cons, List.map_cons, List.sum_cons, ← Nat.add_assoc]
    by_cases hallowed : cleaned rawPath ∈ allowed
    · rw [if_neg (not_not.mpr hallowed)]
      by_cases hlength : 2097152 < content.length
      · simp [hlength, Nat.not_le.mpr hlength]
      · simp [hlength, ih, hallowed, Nat.not_lt.mp hlength]
    · simp [hallowed]

/-- The request passes every check of `writeComposeConfig`. -/
structure Accepted (project : ComposeProject) (request : ComposeSaveRequest) : Prop where
  nonempty : request.files.length ≠ 0
  count : request.files.length = project.configFiles.length
  files : ∀ file ∈ request.files,
    cleaned file.1 ∈ project.configFiles ∧ file.2.length ≤ 2097152
  total : (request.files.map (·.2.length)).sum ≤ 4194304

/-- The files of the list that are written: all before the first one that is not there or on which
an operation fails. -/
def reached (fails : ℕ → Option String) (files : Files) : ℕ → List String → List String
  | _, [] => []
  | index, path :: rest =>
    if fails index = none ∧ files path ≠ none then path :: reached fails files (index + 1) rest
    else []

theorem reached_subset {fails : ℕ → Option String} {index : ℕ} :
    reached fails files index paths ⊆ paths := by
  induction paths generalizing index with
  | nil => exact List.Subset.refl _
  | cons path rest ih =>
    rw [reached]
    split
    · exact List.cons_subset_cons path ih
    · exact List.nil_subset _

/-- Only the files there are matter. -/
theorem reached_congr {fails : ℕ → Option String} {index : ℕ} {files' : Files}
    (h : ∀ path, files' path = none ↔ files path = none) :
    reached fails files' index paths = reached fails files index paths := by
  induction paths generalizing index with
  | nil => rfl
  | cons path rest ih => simp only [reached, ih, ne_eq, h path]

/-- A file that is written over was there and is there. -/
theorem update_eq_none {path other : String} {content : Bytes} (h : files path ≠ none) :
    Function.update files path (some content) other = none ↔ files other = none := by
  by_cases hother : other = path
  · subst hother
    simp [h]
  · rw [Function.update_of_ne hother]

/-- Files of the list get the contents that `content` has for them. -/
def overwritten (content : String → Option Bytes) (paths : List String) (files : Files) : Files :=
  fun path => if path ∈ paths then content path else files path

theorem overwritten_nil (content : String → Option Bytes) : overwritten content [] files = files :=
  funext fun _ => if_neg List.not_mem_nil

theorem overwritten_cons {content : String → Option Bytes} {path : String} :
    overwritten content (path :: paths) files =
      overwritten content paths (Function.update files path (content path)) := by
  funext other
  unfold overwritten
  by_cases hother : other = path
  · subst hother
    simp
  · simp [hother]

theorem writeFiles_files {fails : ℕ → Option String} {index : ℕ} :
    (writeFiles request fails index paths files).2 =
      overwritten (fun path => some (request.content (cleaned path)))
        (reached fails files index paths) files := by
  induction paths generalizing index files with
  | nil => rfl
  | cons path rest ih =>
    rw [writeFiles, reached]
    cases hfails : fails index with
    | some err => rfl
    | none =>
      by_cases hnone : files path = none
      · simp only [hnone, if_true, ne_eq, not_true_eq_false, and_false, if_false]
        exact (overwritten_nil _).symm
      · simp only [hnone, if_false, ne_eq, not_false_eq_true, and_self, if_true]
        rw [ih, reached_congr fun _ => update_eq_none hnone, overwritten_cons]

theorem writeFiles_error {fails : ℕ → Option String} {index : ℕ} :
    (writeFiles request fails index paths files).1 = none ↔
      reached fails files index paths = paths := by
  induction paths generalizing index files with
  | nil => exact ⟨fun _ => rfl, fun _ => rfl⟩
  | cons path rest ih =>
    rw [writeFiles, reached]
    cases hfails : fails index with
    | some err => simp
    | none =>
      by_cases hnone : files path = none
      · simp [hnone]
      · simp only [hnone, if_false, ne_eq, not_false_eq_true, and_self, if_true]
        rw [ih, reached_congr fun _ => update_eq_none hnone, List.cons.injEq, and_iff_right rfl]

theorem ComposeProject.map_cleaned (project : ComposeProject) :
    project.configFiles.map cleaned = project.configFiles :=
  (List.map_congr_left project.clean).trans (List.map_id' _)

/-- Before a file is written there is nothing but checks. -/
theorem writeComposeConfig_rejected (h : ¬ (a.project = none ∧ Accepted project request)) :
    ∃ err, writeComposeConfig project request a files = (("", some err), files) := by
  unfold writeComposeConfig
  rw [project.map_cleaned]
  cases hproject : a.project with
  | some err => exact ⟨err, rfl⟩
  | none =>
    dsimp only
    split
    · exact ⟨_, rfl⟩
    · rename_i hcount
      rw [not_or, ne_eq, not_not] at hcount
      cases hcheck : checkFiles project.configFiles request.files 0 with
      | error err => exact ⟨err, rfl⟩
      | ok total =>
        obtain ⟨hfiles, rfl⟩ := checkFiles_eq_ok.mp hcheck
        dsimp only
        split
        · exact ⟨_, rfl⟩
        · rename_i htotal
          rw [Nat.zero_add] at htotal
          exact absurd ⟨hproject, hcount.1, hcount.2, hfiles, Nat.not_lt.mp htotal⟩ h

/-- All files were written, and the commands succeed. -/
structure Finished (project : ComposeProject) (request : ComposeSaveRequest) (a : WriteAnswers)
    (files : Files) : Prop where
  files : reached a.file files 0 project.configFiles = project.configFiles
  config : a.config.2 = none
  up : request.deploy = true → a.up.2 = none

theorem writeComposeConfig_accepted (hproject : a.project = none)
    (haccepted : Accepted project request) :
    (writeComposeConfig project request a files).2 =
      overwritten (fun path => some (request.content (cleaned path)))
        (reached a.file files 0 project.configFiles) files ∧
    ((writeComposeConfig project request a files).1.2 = none ↔ Finished project request a files) := by
  have hcheck : checkFiles project.configFiles request.files 0 =
      .ok (0 + (request.files.map (·.2.length)).sum) :=
    checkFiles_eq_ok.mpr ⟨haccepted.files, rfl⟩
  have hcount : ¬ (request.files.length = 0 ∨ request.files.length ≠ project.configFiles.length) :=
    not_or.mpr ⟨haccepted.nonempty, not_not.mpr haccepted.count⟩
  have htotal : ¬ 4194304 < 0 + (request.files.map (·.2.length)).sum := by
    rw [Nat.zero_add]
    exact Nat.not_lt.mpr haccepted.total
  have hfiles : (writeFiles request a.file 0 project.configFiles files).2 =
      overwritten (fun path => some (request.content (cleaned path)))
        (reached a.file files 0 project.configFiles) files := writeFiles_files
  have herror : (writeFiles request a.file 0 project.configFiles files).1 = none ↔
      reached a.file files 0 project.configFiles = project.configFiles := writeFiles_error
  unfold writeComposeConfig
  simp only [hproject, hcount, if_false, project.map_cleaned, hcheck, htotal]
  generalize hwritten : writeFiles request a.file 0 project.configFiles files = result at hfiles herror ⊢
  obtain ⟨err, after⟩ := result
  dsimp only at hfiles herror
  subst hfiles
  cases err with
  | some err => exact ⟨rfl, iff_of_false (Option.some_ne_none _) fun h => nomatch herror.mpr h.files⟩
  | none =>
    have hreached := herror.mp rfl
    rcases hconfig : a.config with ⟨output, err⟩
    cases err with
    | some err =>
      refine ⟨rfl, iff_of_false (Option.some_ne_none _) fun h => ?_⟩
      have hfail := h.config
      rw [hconfig] at hfail
      cases hfail
    | none =>
      cases hdeploy : request.deploy with
      | false =>
        exact ⟨rfl, iff_of_true rfl ⟨hreached, by rw [hconfig], by rw [hdeploy]; nofun⟩⟩
      | true =>
        cases hup : a.up.2 with
        | some err =>
          refine ⟨rfl, iff_of_false (Option.some_ne_none _) fun h => ?_⟩
          have hfail := h.up hdeploy
          rw [hup] at hfail
          cases hfail
        | none => exact ⟨rfl, iff_of_true rfl ⟨hreached, by rw [hconfig], fun _ => hup⟩⟩

/-! ## What is restored -/

theorem mem_prune {snapshot : Snapshot} {snapshots : List Snapshot}
    (h : snapshot ∈ prune newest c snapshots) : snapshot ∈ snapshots := by
  unfold prune at h
  split at h
  · exact h
  · rw [← (newest.perm snapshots).mem_iff]
    rcases List.mem_append.mp h with hkept | hremains
    · exact List.mem_of_mem_take hkept
    · exact List.mem_of_mem_drop (List.mem_of_mem_filter hremains)

theorem mem_stored {name : String} {snapshot : Snapshot} (h : snapshot ∈ stored newest c name paths s) :
    snapshot.id ≠ c.id ∨ snapshot = taken c name paths s.files := by
  rcases List.mem_append.mp (mem_prune h) with hother | htaken
  · exact Or.inl (of_decide_eq_true (List.mem_filter.mp hother).2)
  · exact Or.inr (List.mem_singleton.mp htaken)

/-- The snapshot is pruned when it has been taken: it is none of the 80 newest. -/
def Pruned (newest : NewestFirst) (c : CreateAnswers) (name : String) (paths : List String)
    (s : State) : Prop := taken c name paths s.files ∉ stored newest c name paths s

theorem find_pruned {name : String} (h : Pruned newest c name paths s) :
    (stored newest c name paths s).find? (·.id = c.id) = none := by
  rw [List.find?_eq_none]
  intro snapshot hmem hid
  rcases mem_stored hmem with hother | rfl
  · exact hother (of_decide_eq_true hid)
  · exact h hmem

theorem find_kept {name : String} (h : ¬ Pruned newest c name paths s) :
    (stored newest c name paths s).find? (·.id = c.id) = some (taken c name paths s.files) := by
  cases hfind : (stored newest c name paths s).find? (·.id = c.id) with
  | none =>
    rw [List.find?_eq_none] at hfind
    exact absurd (decide_eq_true rfl) (hfind _ (not_not.mp h))
  | some snapshot =>
    have hid := List.find?_some hfind
    rcases mem_stored (List.mem_of_find?_eq_some hfind) with hother | rfl
    · exact absurd (of_decide_eq_true hid) hother
    · rfl

/-- The paths of the list, with what the files hold. -/
def itemsOf (files : Files) (paths : List String) : List Item :=
  paths.map fun raw => ⟨original raw, files (original raw)⟩

/-- No copy fails, from the index on. -/
def Copied (fails : ℕ → Option String) (index : ℕ) (paths : List String) : Prop :=
  ∀ i < paths.length, fails (index + i) = none

theorem copied_cons {fails : ℕ → Option String} {index : ℕ} {raw : String} :
    Copied fails index (raw :: paths) ↔ fails index = none ∧ Copied fails (index + 1) paths := by
  unfold Copied
  constructor
  · intro h
    refine ⟨h 0 (Nat.succ_pos _), fun i hi => ?_⟩
    rw [Nat.add_right_comm]
    exact h (i + 1) (Nat.succ_lt_succ hi)
  · intro h i hi
    cases i with
    | zero => exact h.1
    | succ i =>
      rw [← Nat.add_assoc, Nat.add_right_comm]
      exact h.2 i (Nat.lt_of_succ_lt_succ hi)

theorem currentItems_eq_ok {fails : ℕ → Option String} {index : ℕ} {before : Files}
    {items : List Item} : currentItems files fails index (itemsOf before paths) = .ok items ↔
      Copied fails index paths ∧ items = itemsOf files paths := by
  induction paths generalizing index items with
  | nil =>
    rw [itemsOf, List.map_nil, currentItems, Except.ok.injEq]
    exact ⟨fun h => ⟨fun _ hi => absurd hi (Nat.not_lt_zero _), h.symm⟩, fun h => h.2.symm⟩
  | cons raw rest ih =>
    have hrest : itemsOf before (raw :: rest) =
        ⟨original raw, before (original raw)⟩ :: itemsOf before rest := rfl
    rw [hrest, currentItems, copied_cons]
    cases hfails : fails index with
    | some err => simp
    | none =>
      cases hcurrent : currentItems files fails (index + 1) (itemsOf before rest) with
      | error err =>
        have hnot : ¬ Copied fails (index + 1) rest := fun hcopied => by
          rw [ih.mpr ⟨hcopied, rfl⟩] at hcurrent
          cases hcurrent
        simp [Except.map, hnot]
      | ok others =>
        obtain ⟨hcopied, rfl⟩ := ih.mp hcurrent
        simp [Except.map, hcopied, itemsOf, eq_comm]

/-- Each item is put in its place, from the index on. -/
def Put (r : ℕ → PutAnswers) (before : Files) (index : ℕ) (paths : List String) : Prop :=
  ∀ i raw, paths[i]? = some raw →
    (r (index + i)).remove = none ∧ (before (original raw) ≠ none → (r (index + i)).copy = none)

theorem put_cons {r : ℕ → PutAnswers} {before : Files} {index : ℕ} {raw : String} :
    Put r before index (raw :: paths) ↔
      ((r index).remove = none ∧ (before (original raw) ≠ none → (r index).copy = none)) ∧
      Put r before (index + 1) paths := by
  unfold Put
  constructor
  · intro h
    refine ⟨h 0 raw rfl, fun i raw' hraw => ?_⟩
    rw [Nat.add_right_comm]
    exact h (i + 1) raw' hraw
  · rintro ⟨hfirst, hrest⟩ i raw' hraw
    cases i with
    | zero =>
      obtain rfl : raw = raw' := Option.some.inj hraw
      exact hfirst
    | succ i =>
      rw [← Nat.add_assoc, Nat.add_right_comm]
      exact hrest i raw' hraw

theorem restoreItem_eq_none {r : PutAnswers} {item : Item} :
    (restoreItem r files item).1 = none ↔
      r.remove = none ∧ (item.content ≠ none → r.copy = none) := by
  obtain ⟨remove, copy⟩ := r
  obtain ⟨path, content⟩ := item
  cases remove <;> cases content <;> cases copy <;> simp [restoreItem]

theorem restoreItem_files {r : PutAnswers} {item : Item} (h : (restoreItem r files item).1 = none) :
    (restoreItem r files item).2 = Function.update files item.original item.content := by
  obtain ⟨remove, copy⟩ := r
  obtain ⟨path, content⟩ := item
  cases remove <;> cases content <;> cases copy <;> first | rfl | cases h

/-- An item changes no file but its own, and makes none where there was none. -/
theorem restoreItem_other {r : PutAnswers} {item : Item} {path : String}
    (h : item.original = path → item.content = none ∧ files path = none) :
    (restoreItem r files item).2 path = files path := by
  obtain ⟨remove, copy⟩ := r
  obtain ⟨own, content⟩ := item
  dsimp only at h
  by_cases hown : own = path
  · subst hown
    obtain ⟨rfl, hnone⟩ := h rfl
    cases remove <;> cases copy <;> simp [restoreItem, hnone]
  · have hne : path ≠ own := Ne.symm hown
    cases remove <;> cases content <;> cases copy <;> simp [restoreItem, hne]

theorem restoreItems_put {r : ℕ → PutAnswers} {index : ℕ} {before : Files} :
    (restoreItems r index (itemsOf before paths) files).1 = none ↔ Put r before index paths := by
  induction paths generalizing index files with
  | nil => exact iff_of_true rfl nofun
  | cons raw rest ih =>
    have hrest : itemsOf before (raw :: rest) =
        ⟨original raw, before (original raw)⟩ :: itemsOf before rest := rfl
    rw [hrest, restoreItems, put_cons,
      ← @restoreItem_eq_none files (r index) ⟨original raw, before (original raw)⟩]
    cases hitem : restoreItem (r index) files ⟨original raw, before (original raw)⟩ with
    | mk err after =>
      cases err with
      | some err => simp
      | none => simp [ih]

theorem restoreItems_files {r : ℕ → PutAnswers} {index : ℕ} {before : Files}
    (h : Put r before index paths) :
    (restoreItems r index (itemsOf before paths) files).2 =
      overwritten before (paths.map original) files := by
  induction paths generalizing index files with
  | nil => exact (overwritten_nil _).symm
  | cons raw rest ih =>
    rw [put_cons] at h
    have hrest : itemsOf before (raw :: rest) =
        ⟨original raw, before (original raw)⟩ :: itemsOf before rest := rfl
    have hitem : (restoreItem (r index) files ⟨original raw, before (original raw)⟩).1 = none :=
      restoreItem_eq_none.mpr h.1
    rw [hrest, restoreItems, List.map_cons, overwritten_cons, ← ih h.2]
    have hfiles := restoreItem_files hitem
    generalize restoreItem (r index) files ⟨original raw, before (original raw)⟩ = result at hitem hfiles
    obtain ⟨err, after⟩ := result
    dsimp only at hitem hfiles
    subst hitem hfiles
    rfl

/-- A path that was not recorded, or has no file, stays as it is. -/
theorem restoreItems_other {r : ℕ → PutAnswers} {index : ℕ} {before : Files} {path : String}
    (h : path ∈ paths.map original → before path = none ∧ files path = none) :
    (restoreItems r index (itemsOf before paths) files).2 path = files path := by
  induction paths generalizing index files with
  | nil => rfl
  | cons raw rest ih =>
    have hrest : itemsOf before (raw :: rest) =
        ⟨original raw, before (original raw)⟩ :: itemsOf before rest := rfl
    have hitem : (restoreItem (r index) files ⟨original raw, before (original raw)⟩).2 path =
        files path := by
      refine restoreItem_other fun hown => ?_
      dsimp only at hown ⊢
      subst hown
      exact h List.mem_cons_self
    rw [hrest, restoreItems]
    generalize restoreItem (r index) files ⟨original raw, before (original raw)⟩ = result at hitem ⊢
    obtain ⟨err, after⟩ := result
    cases err with
    | some err => exact hitem
    | none =>
      dsimp only at hitem ⊢
      rw [ih fun hmem => ?_, hitem]
      rw [hitem]
      exact h (List.mem_cons_of_mem _ hmem)

/-! ## What is rolled back -/

/-- What the last copy of the file in the roll back leaves, if it fails. -/
def damage (r : ℕ → PutAnswers) : ℕ → List String → String → Option (Option Bytes)
  | _, [], _ => none
  | index, raw :: rest, path =>
    if path ∈ rest.map original then damage r (index + 1) rest path
    else if original raw = path then (r index).copy.map (·.1)
    else none

theorem damage_eq_none {r : ℕ → PutAnswers} {index : ℕ} {path : String}
    (h : path ∉ paths.map original) : damage r index paths path = none := by
  cases paths with
  | nil => rfl
  | cons raw rest =>
    rw [List.map_cons, List.mem_cons, not_or] at h
    rw [damage, if_neg h.2, if_neg (Ne.symm h.1)]

theorem rollBackItem_other {r : PutAnswers} {rb : Item} {path : String}
    (h : rb.original = path → rb.content = none ∧ files path = none) :
    rollBackItem r files rb path = files path := by
  obtain ⟨remove, copy⟩ := r
  obtain ⟨own, content⟩ := rb
  dsimp only at h
  by_cases hown : own = path
  · subst hown
    obtain ⟨rfl, hnone⟩ := h rfl
    cases remove <;> simp [rollBackItem, hnone]
  · have hne : path ≠ own := Ne.symm hown
    cases remove <;> cases content <;> cases copy <;> simp [rollBackItem, hne]

theorem rollBackItem_own {r : PutAnswers} {path : String} {content : Bytes} :
    rollBackItem r files ⟨path, some content⟩ path = (r.copy.map (·.1)).getD (some content) := by
  obtain ⟨remove, copy⟩ := r
  cases copy <;> simp [rollBackItem]

theorem rollBack_other {r : ℕ → PutAnswers} {index : ℕ} {current : Files} {path : String}
    (h : path ∈ paths.map original → current path = none ∧ files path = none) :
    rollBack r index (itemsOf current paths) files path = files path := by
  induction paths generalizing index files with
  | nil => rfl
  | cons raw rest ih =>
    have hitem : rollBackItem (r index) files ⟨original raw, current (original raw)⟩ path =
        files path := by
      refine rollBackItem_other fun hown => ?_
      dsimp only at hown ⊢
      subst hown
      exact h List.mem_cons_self
    have hrest : rollBack r index (itemsOf current (raw :: rest)) files =
        rollBack r (index + 1) (itemsOf current rest)
          (rollBackItem (r index) files ⟨original raw, current (original raw)⟩) := rfl
    rw [hrest, ih fun hmem => ?_, hitem]
    rw [hitem]
    exact h (List.mem_cons_of_mem _ hmem)

/-- A file that was there gets back what it held, unless its last copy fails. -/
theorem rollBack_own {r : ℕ → PutAnswers} {index : ℕ} {current : Files} {path : String}
    (hpath : path ∈ paths.map original) (hcurrent : current path ≠ none) :
    rollBack r index (itemsOf current paths) files path =
      (damage r index paths path).getD (current path) := by
  induction paths generalizing index files with
  | nil => cases hpath
  | cons raw rest ih =>
    have hrest : rollBack r index (itemsOf current (raw :: rest)) files =
        rollBack r (index + 1) (itemsOf current rest)
          (rollBackItem (r index) files ⟨original raw, current (original raw)⟩) := rfl
    rw [hrest, damage]
    by_cases hmem : path ∈ rest.map original
    · rw [if_pos hmem, ih hmem]
    · obtain rfl : path = original raw := (List.mem_cons.mp hpath).resolve_right hmem
      obtain ⟨content, hcontent⟩ := Option.ne_none_iff_exists'.mp hcurrent
      rw [if_neg hmem, if_pos rfl, rollBack_other fun h => absurd h hmem, hcontent, rollBackItem_own]

/-! ## The outcome of a restore -/

/-- The snapshot is there, and all that comes before the first file is touched succeeds. -/
structure Begins (newest : NewestFirst) (c : CreateAnswers) (r : RestoreAnswers) (name : String)
    (paths : List String) (s : State) : Prop where
  kept : ¬ Pruned newest c name paths s
  load : r.load = none
  mkdirTemp : r.mkdirTemp = none
  copied : Copied r.copy 0 paths

theorem restore_stopped {name : String} (h : ¬ Begins newest c r name paths s) :
    (restore r c.id ⟨files, stored newest c name paths s⟩).2 =
      ⟨files, stored newest c name paths s⟩ := by
  unfold restore
  by_cases hpruned : Pruned newest c name paths s
  · rw [find_pruned hpruned]
  · rw [find_kept hpruned]
    cases hload : r.load with
    | some err => rfl
    | none =>
      cases hmkdir : r.mkdirTemp with
      | some err => rfl
      | none =>
        dsimp only
        cases hcurrent : currentItems files r.copy 0 (taken c name paths s.files).items with
        | error err => rfl
        | ok rollback =>
          exact absurd ⟨hpruned, hload, hmkdir, (currentItems_eq_ok.mp hcurrent).1⟩ h

theorem restore_begun {name : String} (h : Begins newest c r name paths s) :
    (restore r c.id ⟨files, stored newest c name paths s⟩).2.files =
      match restoreItems r.put 0 (itemsOf s.files paths) files with
      | (none, after) => after
      | (some _, after) => rollBack r.back 0 (itemsOf files paths) after := by
  have hcurrent : currentItems files r.copy 0 (taken c name paths s.files).items =
      .ok (itemsOf files paths) := currentItems_eq_ok.mpr ⟨h.copied, rfl⟩
  have hitems : (taken c name paths s.files).items = itemsOf s.files paths := rfl
  unfold restore
  rw [find_kept h.kept, h.load, h.mkdirTemp]
  dsimp only
  rw [hcurrent]
  dsimp only
  rw [hitems]
  rcases restoreItems r.put 0 (itemsOf s.files paths) files with ⟨_ | err, after⟩ <;> rfl

theorem restore_done {name : String} (h : Begins newest c r name paths s)
    (hput : Put r.put s.files 0 paths) :
    (restore r c.id ⟨files, stored newest c name paths s⟩).2.files =
      overwritten s.files (paths.map original) files := by
  have herror := (@restoreItems_put files _ _ _ _).mpr hput
  have hfiles := @restoreItems_files files _ _ _ _ hput
  rw [restore_begun h]
  generalize restoreItems r.put 0 (itemsOf s.files paths) files = result at herror hfiles ⊢
  obtain ⟨err, after⟩ := result
  dsimp only at herror hfiles
  subst herror hfiles
  rfl

/-- The restore of a snapshot of files that are still there is undone. -/
theorem restore_undone {name : String} (h : Begins newest c r name paths s)
    (hput : ¬ Put r.put s.files 0 paths) (hsame : ∀ path, files path = none ↔ s.files path = none)
    (path : String) :
    (restore r c.id ⟨files, stored newest c name paths s⟩).2.files path =
      if s.files path = none then files path
      else (damage r.back 0 paths path).getD (files path) := by
  have herror := (not_congr (@restoreItems_put files _ _ _ _)).mpr hput
  have hother := @restoreItems_other files paths r.put 0 s.files path
  rw [restore_begun h]
  generalize restoreItems r.put 0 (itemsOf s.files paths) files = result at herror hother ⊢
  obtain ⟨err, after⟩ := result
  cases err with
  | none => exact absurd rfl herror
  | some err =>
    dsimp only at hother ⊢
    by_cases hnone : s.files path = none
    · have hafter : after path = files path := hother fun _ => ⟨hnone, (hsame path).mpr hnone⟩
      rw [if_pos hnone, rollBack_other fun _ => ⟨(hsame path).mpr hnone, ?_⟩, hafter]
      rw [hafter, (hsame path).mpr hnone]
    · rw [if_neg hnone]
      by_cases hpath : path ∈ paths.map original
      · exact rollBack_own hpath fun hfiles => hnone ((hsame path).mp hfiles)
      · rw [damage_eq_none hpath, rollBack_other fun hmem => absurd hmem hpath,
          hother fun hmem => absurd hmem hpath, Option.getD_none]

end LukePanel.Agent.ComposeSave
