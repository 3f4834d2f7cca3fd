import Mathlib.Algebra.GroupWithZero.Nat
import LukePanel.Library.Attempt
import LukePanel.Library.GoStrings
import LukePanel.Library.PathTree
import LukePanel.Library.SlashPath

/-! # Extracting an uploaded archive

`extractGitHubArchive` of `internal/githubhelper/importer.go`: the ZIP entries become files
below a temporary directory, under the path each will have in the repository. Their names are bytes,
written as text (`RawText.raw`). -/
namespace LukePanel.GithubHelper.Archive
open LukePanel.Library.Attempt LukePanel.Library.GoStrings LukePanel.Library.PathTree
open LukePanel.Library.SlashPath

def maxGitHubArchiveSize : Nat := 67108864

def maxGitHubExpanded : Nat := 268435456

def maxGitHubFileSize : Nat := 33554432

def maxGitHubFiles : Nat := 5000

/-- `*zip.File`. Reading it yields `content`, or fails. -/
structure ZipFile where
  name : String
  isDir : Bool
  isSymlink : Bool
  perm : Nat
  uncompressedSize64 : Nat
  content : Option (List UInt8)
  deriving DecidableEq, Repr

structure ArchiveFile where
  path : List String
  mode : String
  size : Nat
  content : List UInt8
  blobSHA : String
  deriving DecidableEq, Repr

/-! ## Paths -/

/-- `strings.ReplaceAll` of two backslashes by a slash. -/
def replaceBackslashes : List Char → List Char
  | '\\' :: '\\' :: rest => '/' :: replaceBackslashes rest
  | c :: rest => c :: replaceBackslashes rest
  | [] => []

def cleanName (name : String) : CleanPath := clean (String.ofList (replaceBackslashes name.toList))

def isRepositoryTopLevelDirectory (value : String) : Bool :=
  let name := (trimSpace value).toList.map lowerChar
  name.head? == some '.' ||
    (["api", "assets", "build", "client", "cmd", "config", "configs", "deploy", "docker", "docs",
      "examples", "internal", "packaging", "pkg", "scripts", "server", "src", "static", "test",
      "tests", "tools", "ui", "web"].map String.toList).contains name

/-- `strings.HasPrefix(clean, "__MACOSX/")` -/
def isMacMetadata (p : CleanPath) : Bool :=
  !p.rooted && p.parts.head? == some "__MACOSX" && 2 ≤ p.parts.length

/-- `strings.Split(clean, "/")` -/
def slashParts (p : CleanPath) : List String :=
  if p.rooted then if p.parts = [] then ["", ""] else "" :: p.parts else p.parts

/-- The loop of `commonArchiveRoot`; `seen` is the root found so far. -/
def commonRoot (seen : Option String) : List ZipFile → String
  | [] =>
    match seen with
    | none => ""
    | some root => if isRepositoryTopLevelDirectory root then "" else root
  | item :: rest =>
    let clean := cleanName item.name
    if (clean.parts = [] ∧ !clean.rooted) ∨ isMacMetadata clean then commonRoot seen rest
    else
      match slashParts clean with
      | first :: _ :: _ =>
        match seen with
        | none => commonRoot (some first) rest
        | some root => if first ≠ root then "" else commonRoot (some root) rest
      | _ => ""

def commonArchiveRoot (files : List ZipFile) : String := commonRoot none files

/-- The path without the root it lies below. -/
def stripRoot (root : String) (clean : CleanPath) : CleanPath :=
  if root ≠ "" ∧ !clean.rooted ∧ clean.parts.head? = some root then
    { clean with parts := clean.parts.tail }
  else clean

/-- What becomes of a path without its root. -/
def classifyPath (clean : CleanPath) : Except String (Option (List String)) :=
  if clean.parts = [] ∧ !clean.rooted then .ok none
  else if clean.rooted ∨ clean.climbs ∨ clean.parts.any fun p => p.toList.any (·.toNat == 0) then
    .error "ZIP 包含不安全路径"
  else if clean.parts.head? = some ".git" ∨ clean.parts = [".DS_Store"] ∨ isMacMetadata clean then
    .ok none
  else .ok (some clean.parts)

/-- The path without its root, `none` where the entry is skipped. -/
def normalizeArchivePath (value root : String) : Except String (Option (List String)) :=
  classifyPath (stripRoot root (cleanName value))

theorem stripRoot_parts (root : String) (clean : CleanPath) :
    (stripRoot root clean).parts = clean.parts ∨
      (stripRoot root clean).parts = clean.parts.tail := by
  unfold stripRoot
  split
  · exact .inr rfl
  · exact .inl rfl

theorem classifyPath_some {clean : CleanPath} {name : List String}
    (h : classifyPath clean = .ok (some name)) :
    name = clean.parts ∧ name ≠ [] ∧ clean.rooted = false ∧ clean.climbs = false := by
  unfold classifyPath at h
  split at h
  · cases h
  · rename_i hempty
    split at h
    · cases h
    · rename_i hsafe
      obtain ⟨hroot, hsafe⟩ := not_or.mp hsafe
      obtain ⟨hclimbs, -⟩ := not_or.mp hsafe
      split at h
      · cases h
      · cases h
        exact ⟨rfl, fun hnil => hempty ⟨hnil, by simpa using hroot⟩, by simpa using hroot,
          by simpa using hclimbs⟩

/-- A path that is accepted is made of names. -/
theorem normalize_named {value root : String} {name : List String}
    (h : normalizeArchivePath value root = .ok (some name)) :
    name ≠ [] ∧ ∀ part ∈ name, Named part := by
  rw [normalizeArchivePath] at h
  obtain ⟨rfl, hne, -, hclimbs⟩ := classifyPath_some h
  obtain ⟨names, n, hparts, hnames, -⟩ :=
    clean_parts (String.ofList (replaceBackslashes value.toList))
  change (cleanName value).parts = _ at hparts
  -- what is left of the path when its root goes is still a run of `..` and names
  have hshape : ∃ m more, (stripRoot root (cleanName value)).parts =
      List.replicate m ".." ++ more ∧ ∀ part ∈ more, Named part := by
    rcases stripRoot_parts root (cleanName value) with hcases | hcases
    · exact ⟨n, names, hcases.trans hparts, hnames⟩
    · rw [hcases, hparts]
      cases n with
      | zero => exact ⟨0, names.tail, rfl, fun part hpart => hnames part (List.mem_of_mem_tail hpart)⟩
      | succ n => exact ⟨n, names, rfl, hnames⟩
  refine ⟨hne, ?_⟩
  obtain ⟨m, more, hp, hmore⟩ := hshape
  cases m with
  | zero =>
    rw [hp]
    exact hmore
  | succ m => simp [CleanPath.climbs, hp, List.replicate_succ] at hclimbs

/-! ## Extraction -/

section

variable (sha1 : List UInt8 → String)

/-- The hash over `blob N\\0` and the content; `sha1` yields it in hexadecimal. -/
def gitBlobSHA (content : List UInt8) : String :=
  sha1 (("blob " ++ toString content.length).toList.map (fun c => c.toNat.toUInt8) ++ 0 :: content)

/-- `os.MkdirAll` for the directory of a path and `os.OpenFile` with `O_EXCL`, where `disk` holds
the files there are. -/
def createExcl (disk : List (List String)) (path : List String) : Except String Unit :=
  if disk.any fun f => f <+: path ∧ f ≠ path then .error "not a directory"
  else if disk.any fun f => path <+: f then .error "file exists"
  else .ok ()

structure Extracted where
  files : List ArchiveFile
  skipped : Nat
  total : Nat
  deriving DecidableEq, Repr

def extractItem (root : String) (st : Extracted) (item : ZipFile) : Except String Extracted := do
  match ← normalizeArchivePath item.name root with
  | none => return { st with skipped := st.skipped + 1 }
  | some name =>
    if item.isDir then return st
    if item.isSymlink then throw ("ZIP 包含符号链接：" ++ "/".intercalate name)
    if maxGitHubFileSize < item.uncompressedSize64 ∨
        maxGitHubExpanded < st.total + item.uncompressedSize64 then
      throw "ZIP 解压后的文件体积超过安全限制"
    createExcl (st.files.map (·.path)) name
    match item.content with
    | none => throw "zip: not a valid zip file"
    | some content =>
      if maxGitHubFileSize < content.length then throw ("文件过大：" ++ "/".intercalate name)
      -- any of the three execute bits
      let mode := if item.perm &&& 73 ≠ 0 then "100755" else "100644"
      let file : ArchiveFile := ⟨name, mode, content.length, content, gitBlobSHA sha1 content⟩
      if maxGitHubFiles < st.files.length + 1 then throw "ZIP 中可提交文件超过 5000 个"
      return { st with files := file :: st.files, total := st.total + content.length }

/-- `written` bytes were uploaded; `archive` is what `zip.OpenReader` finds in them. -/
def extractGitHubArchive (written : Nat) (archive : Option (List ZipFile)) :
    Except String Extracted := do
  if maxGitHubArchiveSize < written then throw "GitHub 导入 ZIP 不能超过 64MB"
  match archive with
  | none => throw "上传的文件不是有效 ZIP"
  | some files =>
    if maxGitHubFiles + 500 < files.length then throw "ZIP 中的文件数量过多"
    let st ← files.foldlM (extractItem sha1 (commonArchiveRoot files)) ⟨[], 0, 0⟩
    if st.files = [] then throw "ZIP 中没有可提交文件"
    return st

end

/-! ## What is accepted -/

variable {sha1 : List UInt8 → String}

/-- The files of an archive: each has the size and the hash of its content, and none lies at,
above or below another. -/
structure Accepted (sha1 : List UInt8 → String) (files : List ArchiveFile) : Prop where
  hashed : ∀ f ∈ files, f.size = f.content.length ∧ f.blobSHA = gitBlobSHA sha1 f.content
  apart : files.Pairwise fun f g => ¬ Meets f.path g.path

/-- Files that meet are the same file. -/
theorem Accepted.eq {files : List ArchiveFile} (h : Accepted sha1 files) {f g : ArchiveFile}
    (hf : f ∈ files) (hg : g ∈ files) (hm : Meets f.path g.path) : f = g := by
  by_contra hne
  have hsymm : Std.Symm fun f g : ArchiveFile => ¬ Meets f.path g.path :=
    ⟨fun _ _ hfg hgf => hfg hgf.symm⟩
  exact h.apart.forall hf hg hne hm

theorem Accepted.find_path {files : List ArchiveFile} (h : Accepted sha1 files) {f : ArchiveFile}
    (hf : f ∈ files) : files.find? (·.path == f.path) = some f := by
  cases hfind : files.find? (·.path == f.path) with
  | none =>
    have := List.find?_eq_none.mp hfind f hf
    simp at this
  | some g =>
    have hpath : g.path = f.path := by simpa using List.find?_some hfind
    rw [h.eq (List.mem_of_find?_eq_some hfind) hf (hpath ▸ Meets.refl _)]

theorem createExcl_ok {disk : List (List String)} {path : List String}
    (h : createExcl disk path = .ok ()) : ∀ f ∈ disk, ¬ Meets path f := by
  unfold createExcl at h
  split at h
  · cases h
  · rename_i hbelow
    split at h
    · cases h
    · rename_i hat
      intro f hf hm
      simp only [List.any_eq_true, decide_eq_true_eq, not_exists, not_and] at hbelow hat
      have hnot : ¬ path <+: f := hat f hf
      rcases hm with hm | hm
      · exact hnot hm
      · have heq := not_not.mp (hbelow f hf hm)
        exact hnot (heq ▸ List.prefix_refl f)

/-- A file that collides with none joins the accepted ones. -/
theorem Accepted.cons {files : List ArchiveFile} (h : Accepted sha1 files) {f : ArchiveFile}
    (hsize : f.size = f.content.length) (hsha : f.blobSHA = gitBlobSHA sha1 f.content)
    (hfree : ∀ g ∈ files, ¬ Meets f.path g.path) : Accepted sha1 (f :: files) where
  hashed := by
    intro g hg
    rcases List.mem_cons.mp hg with rfl | hg
    · exact ⟨hsize, hsha⟩
    · exact h.hashed g hg
  apart := List.pairwise_cons.mpr ⟨hfree, h.apart⟩

/-- The path under which an entry is imported; directories and what is skipped have none. -/
def importedPath (root : String) (item : ZipFile) : Option (List String) :=
  match normalizeArchivePath item.name root with
  | .ok (some name) => if item.isDir then none else some name
  | _ => none

/-- The state when a file with this content was added. -/
def Extracted.add (sha1 : List UInt8 → String) (st : Extracted) (item : ZipFile)
    (name : List String) (content : List UInt8) : Extracted where
  files := ⟨name, if item.perm &&& 73 ≠ 0 then "100755" else "100644", content.length, content,
    gitBlobSHA sha1 content⟩ :: st.files
  skipped := st.skipped
  total := st.total + content.length

/-- What an entry must be like to be imported. -/
structure Importable (root : String) (st : Extracted) (item : ZipFile) (name : List String)
    (content : List UInt8) : Prop where
  path : importedPath root item = some name
  notLink : item.isSymlink = false
  declared : item.uncompressedSize64 ≤ maxGitHubFileSize
  room : st.total + item.uncompressedSize64 ≤ maxGitHubExpanded
  free : createExcl (st.files.map (·.path)) name = .ok ()
  readable : item.content = some content
  small : content.length ≤ maxGitHubFileSize
  count : st.files.length < maxGitHubFiles

theorem importedPath_eq_some {root : String} {item : ZipFile} {name : List String} :
    importedPath root item = some name ↔
      normalizeArchivePath item.name root = .ok (some name) ∧ item.isDir = false := by
  unfold importedPath
  split
  · rename_i name' hname
    rw [hname]
    by_cases hdir : item.isDir = true <;> simp [hdir]
  · rename_i hother
    constructor
    · intro h
      cases h
    · intro h
      exact absurd h.1 (hother name)

/-- An entry that is accepted adds its file, or none if it has no path. -/
theorem extractItem_cases {root : String} {st st' : Extracted} {item : ZipFile}
    (h : extractItem sha1 root st item = .ok st') :
    (importedPath root item = none ∧ st'.files = st.files ∧ st'.total = st.total) ∨
      ∃ name content, Importable root st item name content ∧
        st' = st.add sha1 item name content := by
  unfold extractItem at h
  simp only [bind, Except.bind, pure, Except.pure, throw, throwThe, MonadExceptOf.throw] at h
  split at h
  · cases h
  · rename_i found hfound
    split at h
    · cases h
      exact .inl ⟨by rw [importedPath, hfound], rfl, rfl⟩
    · rename_i name
      split at h
      · rename_i hdir
        cases h
        exact .inl ⟨by rw [importedPath, hfound]; exact if_pos hdir, rfl, rfl⟩
      · rename_i hdir
        split at h
        · cases h
        · rename_i hlink
          split at h
          · cases h
          · rename_i hsize
            obtain ⟨hdeclared, hroom⟩ := not_or.mp hsize
            split at h
            · cases h
            · rename_i hcreate
              split at h
              · cases h
              · rename_i content hcontent
                split at h
                · cases h
                · rename_i hsmall
                  split at h
                  · cases h
                  · rename_i hcount
                    cases h
                    exact .inr ⟨name, content, ⟨importedPath_eq_some.mpr ⟨hfound, by simpa using hdir⟩,
                      by simpa using hlink, Nat.le_of_not_lt hdeclared, Nat.le_of_not_lt hroom,
                      hcreate, hcontent, Nat.le_of_not_lt hsmall, Nat.not_lt.mp hcount⟩, rfl⟩

theorem Importable.extractItem {root : String} {st : Extracted} {item : ZipFile}
    {name : List String} {content : List UInt8} (h : Importable root st item name content) :
    extractItem sha1 root st item = .ok (st.add sha1 item name content) := by
  obtain ⟨hname, hdir⟩ := importedPath_eq_some.mp h.path
  have hsize : ¬ (maxGitHubFileSize < item.uncompressedSize64 ∨
      maxGitHubExpanded < st.total + item.uncompressedSize64) :=
    not_or.mpr ⟨Nat.not_lt.mpr h.declared, Nat.not_lt.mpr h.room⟩
  unfold Archive.extractItem
  simp only [bind, Except.bind, pure, Except.pure, throw, throwThe, MonadExceptOf.throw]
  rw [hname]
  simp only [hdir, h.notLink, h.free, h.readable, if_neg hsize, if_neg (Nat.not_lt.mpr h.small),
    if_neg (Nat.not_lt.mpr (Nat.succ_le_of_lt h.count)), Bool.false_eq_true, if_false]
  rfl

theorem extractItem_ok {root : String} {st st' : Extracted} {item : ZipFile}
    (h : extractItem sha1 root st item = .ok st') (hacc : Accepted sha1 st.files) :
    Accepted sha1 st'.files := by
  rcases extractItem_cases h with ⟨-, hfiles, -⟩ | ⟨name, content, himp, rfl⟩
  · rw [hfiles]
    exact hacc
  · have hfree := createExcl_ok himp.free
    exact hacc.cons rfl rfl fun g hg => hfree g.path (List.mem_map_of_mem hg)

theorem extractItems_ok {root : String} {items : List ZipFile} {st st' : Extracted}
    (h : items.foldlM (extractItem sha1 root) st = .ok st') (hacc : Accepted sha1 st.files) :
    Accepted sha1 st'.files := by
  induction items generalizing st with
  | nil => cases h; exact hacc
  | cons item rest ih =>
    rw [List.foldlM_cons] at h
    cases hitem : extractItem sha1 root st item with
    | error e => rw [hitem] at h; cases h
    | ok next =>
      rw [hitem] at h
      exact ih h (extractItem_ok hitem hacc)

/-- An entry was accepted: its path is not refused, and its file comes to the others. -/
theorem extractItem_path {root : String} {st st' : Extracted} {item : ZipFile}
    (h : extractItem sha1 root st item = .ok st') :
    (∃ found, normalizeArchivePath item.name root = .ok found) ∧
      st'.files.map (·.path) = (importedPath root item).toList ++ st.files.map (·.path) := by
  constructor
  · cases hnorm : normalizeArchivePath item.name root with
    | ok found => exact ⟨found, rfl⟩
    | error text =>
      unfold extractItem at h
      rw [hnorm] at h
      cases h
  · rcases extractItem_cases h with ⟨hpath, hfiles, -⟩ | ⟨name, content, himp, rfl⟩
    · rw [hfiles, hpath]
      rfl
    · rw [himp.path]
      rfl

/-- The same of several entries. -/
theorem extractItems_paths {root : String} {items : List ZipFile} {st st' : Extracted}
    (h : items.foldlM (extractItem sha1 root) st = .ok st') :
    (∀ item ∈ items, ∃ found, normalizeArchivePath item.name root = .ok found) ∧
      st'.files.map (·.path) =
        (items.filterMap (importedPath root)).reverse ++ st.files.map (·.path) := by
  induction items generalizing st with
  | nil =>
    cases h
    exact ⟨fun _ hitem => absurd hitem List.not_mem_nil, rfl⟩
  | cons item rest ih =>
    rw [List.foldlM_cons] at h
    obtain ⟨next, hnext, hrest⟩ := bind_eq_ok h
    obtain ⟨hnorm, hpath⟩ := extractItem_path hnext
    obtain ⟨hnorms, hpaths⟩ := ih hrest
    refine ⟨fun other hother => ?_, ?_⟩
    · rcases List.mem_cons.mp hother with rfl | hother
      · exact hnorm
      · exact hnorms other hother
    · rw [hpaths, hpath, List.filterMap_cons]
      cases importedPath root item <;> simp

/-- The bounds that hold after some entries. -/
structure Bounded (st : Extracted) : Prop where
  sizes : ∀ f ∈ st.files, f.size = f.content.length ∧ f.size ≤ maxGitHubFileSize
  count : st.files.length ≤ maxGitHubFiles
  total : st.total = (st.files.map (·.size)).sum
  expanded : st.total ≤ maxGitHubExpanded

/-- The content of an entry is as long as the entry declares. -/
def ZipFile.Honest (item : ZipFile) : Prop :=
  ∀ content, item.content = some content → content.length = item.uncompressedSize64

theorem Bounded.step {root : String} {st st' : Extracted} {item : ZipFile} (hb : Bounded st)
    (hitem : item.Honest) (h : extractItem sha1 root st item = .ok st') : Bounded st' := by
  rcases extractItem_cases h with ⟨-, hfiles, htotal⟩ | ⟨name, content, himp, rfl⟩
  · refine ⟨hfiles ▸ hb.sizes, hfiles ▸ hb.count, ?_, htotal ▸ hb.expanded⟩
    rw [htotal, hfiles, hb.total]
  · have hlen := hitem content himp.readable
    refine ⟨fun f hf => ?_, himp.count, ?_, ?_⟩
    · rcases List.mem_cons.mp hf with rfl | hf
      · exact ⟨rfl, himp.small⟩
      · exact hb.sizes f hf
    · rw [Extracted.add, List.map_cons, List.sum_cons, ← hb.total, Nat.add_comm]
    · rw [Extracted.add, hlen]
      exact himp.room

theorem Bounded.run {root : String} {items : List ZipFile} {st st' : Extracted} (hb : Bounded st)
    (hitems : ∀ item ∈ items, item.Honest)
    (h : items.foldlM (extractItem sha1 root) st = .ok st') : Bounded st' := by
  induction items generalizing st with
  | nil =>
    cases h
    exact hb
  | cons item rest ih =>
    rw [List.foldlM_cons] at h
    obtain ⟨next, hnext, hrest⟩ := bind_eq_ok h
    exact ih (hb.step (hitems item List.mem_cons_self) hnext)
      (fun other hother => hitems other (List.mem_cons_of_mem _ hother)) hrest

theorem Bounded.start : Bounded ⟨[], 0, 0⟩ where
  sizes _ hf := absurd hf List.not_mem_nil
  count := Nat.zero_le _
  total := rfl
  expanded := Nat.zero_le _

/-- What is accepted went through the loop. -/
theorem extract_eq_ok {written : Nat} {archive : Option (List ZipFile)} {st : Extracted} :
    extractGitHubArchive sha1 written archive = .ok st ↔ written ≤ maxGitHubArchiveSize ∧
      ∃ files, archive = some files ∧ files.length ≤ maxGitHubFiles + 500 ∧
        files.foldlM (extractItem sha1 (commonArchiveRoot files)) ⟨[], 0, 0⟩ = .ok st ∧
          st.files ≠ [] := by
  unfold extractGitHubArchive
  simp only [bind, Except.bind, pure, Except.pure, throw, throwThe, MonadExceptOf.throw]
  constructor
  · intro h
    split at h
    · cases h
    · rename_i hsize
      split at h
      · cases h
      · rename_i files
        split at h
        · cases h
        · rename_i hcount
          split at h
          · cases h
          · rename_i st' hfold
            split at h
            · cases h
            · rename_i hne
              cases h
              exact ⟨Nat.le_of_not_lt hsize, files, rfl, Nat.le_of_not_lt hcount, hfold, hne⟩
  · rintro ⟨hsize, files, rfl, hcount, hfold, hne⟩
    rw [if_neg (Nat.not_lt.mpr hsize)]
    dsimp only
    rw [if_neg (Nat.not_lt.mpr hcount), hfold]
    exact if_neg hne

theorem extract_ok {written : Nat} {archive : Option (List ZipFile)} {st : Extracted}
    (h : extractGitHubArchive sha1 written archive = .ok st) : Accepted sha1 st.files := by
  obtain ⟨-, files, -, -, hfold, -⟩ := extract_eq_ok.mp h
  exact extractItems_ok hfold ⟨fun _ hf => absurd hf List.not_mem_nil, .nil⟩

end LukePanel.GithubHelper.Archive
