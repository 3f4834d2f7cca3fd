import Mathlib.Logic.Function.Basic
import LukePanel.GithubHelper.Archive
import LukePanel.Library.CommitHistory
import LukePanel.Library.Machine
import LukePanel.Library.RawText

/-! # Importing an archive into a branch

`Prepare` and `Commit` of `internal/githubhelper/importer.go` for one branch of one repository.
`Commit` asks for the head, uploads the blobs one by one, creates a tree over the one of the
preview and a commit over the head of the preview, and updates the branch: a remote call is one
step, and it takes effect or fails. Other clients push in between. -/
namespace LukePanel.GithubHelper.Importer
open LukePanel.GithubHelper.Archive LukePanel.Library.CommitHistory LukePanel.Library.GoStrings
open LukePanel.Library LukePanel.Library.Machine LukePanel.Library.PathTree

/-! ## The repository -/

/-- Directories are given by what is in them. -/
inductive EntryType where
  | blob
  | commit
  deriving DecidableEq, Repr

structure GitTreeEntry where
  mode : String
  type : EntryType
  sha : String
  deriving DecidableEq, Repr

abbrev RepoTree := Tree String GitTreeEntry

/-- Commits named by their content. `create tree parent message stamp` is the commit that
`POST /git/commits` makes; `stamp` is its author and its second. -/
structure Git (κ : Type) extends History κ where
  tree : κ → RepoTree
  create : RepoTree → κ → String → Nat → κ
  tree_create : ∀ t p message stamp, tree (create t p message stamp) = t
  parents_create : ∀ t p message stamp, parents (create t p message stamp) = [p]

/-- The entries that `repositoryTree` keeps. -/
def existingBlobs (t : RepoTree) : RepoTree := t.filter fun e => e.type == .blob

/-- A path as it is read from the request, which is JSON. A slash belongs to no other character, so that
the elements can be taken one by one. -/
def sentPath (path : List String) : List String := path.map RawText.marshalled

/-- `POST /git/trees` with `base_tree`: an entry overwrites what is in the tree at the path that is
sent. -/
def createTree (base : RepoTree) (entries : List (List String × GitTreeEntry)) : RepoTree :=
  base.putAll (entries.map fun e => (sentPath e.1, e.2))

/-! ## `Prepare` -/

structure ImportChange where
  path : List String
  status : String
  size : Nat
  mode : String
  deriving DecidableEq, Repr

structure ImportPlan (κ : Type) where
  id : String
  headSHA : κ
  added : Nat
  modified : Nat
  unchanged : Nat
  skipped : Nat
  bytes : Nat
  changes : List ImportChange
  expiresAt : Nat

structure ImportPlanState (κ : Type) where
  plan : ImportPlan κ
  session : String
  treeSHA : RepoTree
  files : List ArchiveFile
  existing : RepoTree

/-- The status of a file, `none` where it is unchanged. -/
def classify (existing : RepoTree) (file : ArchiveFile) : Option String :=
  match existing.get file.path with
  | some old =>
    if old.type = .blob then
      if old.sha = file.blobSHA ∧ old.mode = file.mode then none else some "modified"
    else some "added"
  | none => some "added"

def changeOf (existing : RepoTree) (file : ArchiveFile) : Option ImportChange :=
  (classify existing file).map fun status => ⟨file.path, status, file.size, file.mode⟩

def pathString (path : List String) : String := "/".intercalate path

/-- The order of strings is that of their bytes. -/
def sortChanges (changes : List ImportChange) : List ImportChange :=
  changes.mergeSort fun a b =>
    !decide (RawText.bytes (pathString b.path) < RawText.bytes (pathString a.path))

/-- The plan for an extracted archive and the branch as `repositoryTree` has found it. -/
def previewOf {κ : Type} (id session : String) (now : Nat) (headSHA : κ) (treeSHA : RepoTree)
    (st : Extracted) : ImportPlanState κ :=
  let existing := existingBlobs treeSHA
  let changes := st.files.filterMap (changeOf existing)
  { plan :=
      { id
        headSHA
        added := changes.countP (·.status == "added")
        modified := changes.countP (·.status == "modified")
        unchanged := st.files.length - changes.length
        skipped := st.skipped
        bytes := st.total
        changes := sortChanges changes
        -- 30 minutes
        expiresAt := now + 1800000000000 }
    session
    treeSHA
    files := st.files
    existing }

/-! ## `Commit` -/

/-- The tree entry of a file, with the hash `POST /git/blobs` gives its content. -/
def uploadedEntry (sha1 : List UInt8 → String) (file : ArchiveFile) :
    List String × GitTreeEntry :=
  (file.path, ⟨file.mode, .blob, gitBlobSHA sha1 file.content⟩)

/-- The message as committed. -/
def checkMessage (message : String) : Except String String :=
  let message := trimSpace message
  if message = "" ∨ 240 < message.utf8ByteSize ∨ message.toList.any (·.toNat == 0) then
    .error "请填写 1-240 字符的提交说明"
  else .ok message

/-- The checks of `Commit` before its first remote call. -/
def admitCommit {κ : Type} (plans : List (ImportPlanState κ))
    (session planID message token : String) (now : Nat) :
    Except String (ImportPlanState κ × String) :=
  if trimSpace token = "" then .error "GitHub 登录已失效，请重新连接"
  else
    match plans.find? (·.plan.id == planID) with
    | none => .error "导入预览已过期，请重新上传 ZIP"
    | some state =>
      if state.session ≠ session ∨ state.plan.expiresAt < now then
        .error "导入预览已过期，请重新上传 ZIP"
      else
        match checkMessage message with
        | .error e => .error e
        | .ok message =>
          if state.plan.changes = [] then .error "ZIP 内容与仓库一致，没有需要提交的改动"
          else .ok (state, message)

/-! ## The machine -/

inductive Phase (κ : Type) where
  | idle
  /-- `Prepare` has extracted the archive and read the branch. -/
  | fetched (st : Extracted) (head : κ)
  | checking (state : ImportPlanState κ) (message : String)
  /-- `todo` is still to be uploaded. -/
  | uploading (state : ImportPlanState κ) (message : String) (todo : List ImportChange)
      (entries : List (List String × GitTreeEntry))
  | treed (state : ImportPlanState κ) (message : String) (newTree : RepoTree)
  | committed (state : ImportPlanState κ) (commitSHA : κ)
  | succeeded (state : ImportPlanState κ) (commitSHA : κ)
  | failed (err : String)

/-- A move of the branch, by a `Commit` or by another client. -/
structure Move (κ : Type) where
  thread : Option Nat
  old : κ
  new : κ
  deriving DecidableEq

structure State (κ : Type) where
  head : κ
  plans : List (ImportPlanState κ)
  thread : Nat → Phase κ
  moves : List (Move κ)

def start {κ : Type} (head : κ) : State κ := ⟨head, [], fun _ => .idle, []⟩

def State.move {κ : Type} (s : State κ) (i : Nat) (p : Phase κ) : State κ :=
  { s with thread := Function.update s.thread i p }

@[simp] theorem State.move_self {κ : Type} (s : State κ) (i : Nat) (p : Phase κ) :
    (s.move i p).thread i = p := Function.update_self ..

theorem State.move_ne {κ : Type} (s : State κ) {i j : Nat} (p : Phase κ) (h : j ≠ i) :
    (s.move i p).thread j = s.thread j := Function.update_of_ne h ..

inductive Act (κ : Type) where
  /-- Another client moves the branch. -/
  | push (c : κ)
  | prepare (i : Nat) (written : Nat) (archive : Option (List ZipFile))
  /-- `Prepare` stores its plan. -/
  | store (i : Nat) (id session : String) (now : Nat)
  | commit (i : Nat) (session planID message token : String) (now : Nat)
  /-- `repositoryTree` of `Commit`; in the remote calls `ok` is whether they succeed. -/
  | check (i : Nat) (ok : Bool)
  | createBlob (i : Nat) (ok : Bool)
  | createTree (i : Nat) (ok : Bool)
  | createCommit (i : Nat) (ok : Bool) (stamp : Nat)
  | updateBranch (i : Nat) (ok : Bool)
  /-- `CleanupSession` or `cleanupExpired` drops a plan. -/
  | forget (id : String)

section

variable {κ : Type} [DecidableEq κ] (sha1 : List UInt8 → String) (git : Git κ)

def step (s : State κ) : Act κ → Option (State κ)
  | .push c => some { s with head := c, moves := ⟨none, s.head, c⟩ :: s.moves }
  | .prepare i written archive =>
    match s.thread i with
    | .idle =>
      match extractGitHubArchive sha1 written archive with
      | .error e => some (s.move i (.failed e))
      | .ok st => some (s.move i (.fetched st s.head))
    | _ => none
  | .store i id session now =>
    match s.thread i with
    | .fetched st head =>
      some ({ s with
        plans := previewOf id session now head (git.tree head) st ::
          s.plans.filter fun p => !(p.plan.id == id) }.move i .idle)
    | _ => none
  | .commit i session planID message token now =>
    match s.thread i with
    | .idle =>
      match admitCommit s.plans session planID message token now with
      | .error e => some (s.move i (.failed e))
      | .ok (state, message) => some (s.move i (.checking state message))
    | _ => none
  | .check i ok =>
    match s.thread i with
    | .checking state message =>
      if !ok then some (s.move i (.failed "repositoryTree"))
      else if s.head ≠ state.plan.headSHA ∨ git.tree s.head ≠ state.treeSHA then
        some (s.move i (.failed "仓库在预览后发生了变化，请重新上传 ZIP，避免覆盖别人刚提交的内容"))
      else some (s.move i (.uploading state message state.plan.changes []))
    | _ => none
  | .createBlob i ok =>
    match s.thread i with
    | .uploading state message (change :: todo) entries =>
      match state.files.find? (·.path == change.path) with
      -- the zero value of the map names no file on the disk
      | none => some (s.move i (.failed "open : no such file or directory"))
      | some file =>
        if !ok then some (s.move i (.failed ("上传 " ++ pathString change.path ++ " 失败")))
        else
          some (s.move i (.uploading state message todo (entries ++ [uploadedEntry sha1 file])))
    | _ => none
  | .createTree i ok =>
    match s.thread i with
    | .uploading state message [] entries =>
      if !ok then some (s.move i (.failed "createTree"))
      else some (s.move i (.treed state message (createTree state.treeSHA entries)))
    | _ => none
  | .createCommit i ok stamp =>
    match s.thread i with
    | .treed state message newTree =>
      if !ok then some (s.move i (.failed "createCommit"))
      else
        some (s.move i (.committed state (git.create newTree state.plan.headSHA message stamp)))
    | _ => none
  | .updateBranch i ok =>
    match s.thread i with
    | .committed state commitSHA =>
      if !ok then some (s.move i (.failed "updateBranch"))
      else
        some ({ s with
          head := commitSHA
          plans := s.plans.filter fun p => !(p.plan.id == state.plan.id)
          moves := ⟨some i, s.head, commitSHA⟩ :: s.moves }.move i (.succeeded state commitSHA))
    | _ => none
  | .forget id => some { s with plans := s.plans.filter fun p => !(p.plan.id == id) }

end

/-- Pushes and updates of the branch are fast-forwards. -/
def NonForced {κ : Type} (git : Git κ) (s : State κ) : Act κ → Prop
  | .push c => git.Ancestor s.head c
  | .updateBranch i true => ∀ state c, s.thread i = .committed state c → git.Ancestor s.head c
  | _ => True

/-! ## What a step does -/

/-- How a thread goes on in a step that touches nothing else. -/
inductive Goes {κ : Type} (sha1 : List UInt8 → String) (git : Git κ) (s : State κ) :
    Phase κ → Phase κ → Prop
  | failed {p : Phase κ} {err : String} : (∀ state c, p ≠ .succeeded state c) →
      Goes sha1 git s p (.failed err)
  | fetched {written : Nat} {archive : Option (List ZipFile)} {st : Extracted} :
      extractGitHubArchive sha1 written archive = .ok st →
      Goes sha1 git s .idle (.fetched st s.head)
  | admitted {state : ImportPlanState κ} {message : String} : state ∈ s.plans →
      Goes sha1 git s .idle (.checking state message)
  | checked {state : ImportPlanState κ} {message : String} : s.head = state.plan.headSHA →
      Goes sha1 git s (.checking state message)
        (.uploading state message state.plan.changes [])
  | uploaded {state : ImportPlanState κ} {message : String} {change : ImportChange}
      {todo : List ImportChange} {entries : List (List String × GitTreeEntry)}
      {file : ArchiveFile} : state.files.find? (·.path == change.path) = some file →
      Goes sha1 git s (.uploading state message (change :: todo) entries)
        (.uploading state message todo (entries ++ [uploadedEntry sha1 file]))
  | treed {state : ImportPlanState κ} {message : String}
      {entries : List (List String × GitTreeEntry)} :
      Goes sha1 git s (.uploading state message [] entries)
        (.treed state message (createTree state.treeSHA entries))
  | created {state : ImportPlanState κ} {message : String} {newTree : RepoTree} {stamp : Nat} :
      Goes sha1 git s (.treed state message newTree)
        (.committed state (git.create newTree state.plan.headSHA message stamp))

inductive Did {κ : Type} (sha1 : List UInt8 → String) (git : Git κ) (s : State κ) :
    Act κ → State κ → Prop
  | went {a : Act κ} {i : Nat} {p : Phase κ} : Goes sha1 git s (s.thread i) p →
      Did sha1 git s a (s.move i p)
  | pushed {c : κ} :
      Did sha1 git s (.push c) { s with head := c, moves := ⟨none, s.head, c⟩ :: s.moves }
  | stored {i : Nat} {id session : String} {now : Nat} {st : Extracted} {head : κ} :
      s.thread i = .fetched st head →
      Did sha1 git s (.store i id session now) ({ s with
        plans := previewOf id session now head (git.tree head) st ::
          s.plans.filter fun p => !(p.plan.id == id) }.move i .idle)
  | updated {i : Nat} {state : ImportPlanState κ} {c : κ} : s.thread i = .committed state c →
      Did sha1 git s (.updateBranch i true) ({ s with
        head := c
        plans := s.plans.filter fun p => !(p.plan.id == state.plan.id)
        moves := ⟨some i, s.head, c⟩ :: s.moves }.move i (.succeeded state c))
  | forgot {id : String} : Did sha1 git s (.forget id)
      { s with plans := s.plans.filter fun p => !(p.plan.id == id) }

theorem mem_of_admitCommit {κ : Type} {plans : List (ImportPlanState κ)}
    {session planID message token : String} {now : Nat} {state : ImportPlanState κ} {message' : String}
    (h : admitCommit plans session planID message token now = .ok (state, message')) :
    state ∈ plans := by
  unfold admitCommit at h
  split at h
  · cases h
  · split at h
    · cases h
    · rename_i found hfind
      split at h
      · cases h
      · split at h
        · cases h
        · split at h
          · cases h
          · cases h
            exact List.mem_of_find?_eq_some hfind

variable {κ : Type} [DecidableEq κ] {sha1 : List UInt8 → String} {git : Git κ} {s t : State κ}
  {a : Act κ}

theorem did_of_step (h : step sha1 git s a = some t) : Did sha1 git s a t := by
  cases a with
  | push c => simp only [step] at h; cases h; exact .pushed
  | prepare i written archive =>
    simp only [step] at h
    split at h
    · rename_i hphase
      split at h
      · cases h; exact .went (.failed (by rw [hphase]; nofun))
      · rename_i st hextract
        cases h
        exact .went (by rw [hphase]; exact .fetched hextract)
    · cases h
  | store i id session now =>
    simp only [step] at h
    split at h
    · rename_i st head hphase; cases h; exact .stored hphase
    · cases h
  | commit i session planID message token now =>
    simp only [step] at h
    split at h
    · rename_i hphase
      split at h
      · cases h; exact .went (.failed (by rw [hphase]; nofun))
      · rename_i state message' hadmit
        cases h
        exact .went (by rw [hphase]; exact .admitted (mem_of_admitCommit hadmit))
    · cases h
  | check i ok =>
    simp only [step] at h
    split at h
    · rename_i state message hphase
      split at h
      · cases h; exact .went (.failed (by rw [hphase]; nofun))
      · split at h
        · cases h; exact .went (.failed (by rw [hphase]; nofun))
        · rename_i hsame
          cases h
          exact .went (by rw [hphase]; exact .checked (not_not.mp (not_or.mp hsame).1))
    · cases h
  | createBlob i ok =>
    simp only [step] at h
    split at h
    · rename_i state message change todo entries hphase
      split at h
      · cases h; exact .went (.failed (by rw [hphase]; nofun))
      · rename_i file hfile
        split at h
        · cases h; exact .went (.failed (by rw [hphase]; nofun))
        · cases h
          exact .went (by rw [hphase]; exact .uploaded hfile)
    · cases h
  | createTree i ok =>
    simp only [step] at h
    split at h
    · rename_i state message entries hphase
      split at h
      · cases h; exact .went (.failed (by rw [hphase]; nofun))
      · cases h
        exact .went (by rw [hphase]; exact .treed)
    · cases h
  | createCommit i ok stamp =>
    simp only [step] at h
    split at h
    · rename_i state message newTree hphase
      split at h
      · cases h; exact .went (.failed (by rw [hphase]; nofun))
      · cases h
        exact .went (by rw [hphase]; exact .created)
    · cases h
  | updateBranch i ok =>
    simp only [step] at h
    split at h
    · rename_i state c hphase
      cases ok <;> cases h
      · exact .went (.failed (by rw [hphase]; nofun))
      · exact .updated hphase
    · cases h
  | forget id => simp only [step] at h; cases h; exact .forgot

end LukePanel.GithubHelper.Importer
