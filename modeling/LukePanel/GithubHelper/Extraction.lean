import LukePanel.GithubHelper.Archive
import LukePanel.Library.Directories

/-! # Extraction on the disk

`extractGitHubArchive` with the calls it makes: the upload is saved in the temporary directory,
and every entry of the archive becomes a new file below its directory `files`. -/
namespace LukePanel.GithubHelper.Extraction
open LukePanel.Library.Attempt LukePanel.Library.FileSystem LukePanel.Library.Syscalls
open LukePanel.Library.SlashPath LukePanel.GithubHelper.Archive

/-- What `zip.File.Open` returns. The reader fails as soon as there are more bytes than the entry
declares, and ends only if there are as many. -/
structure ZipReader (uncompressedSize64 : Nat) extends Reader where
  short : bytes.length ≤ uncompressedSize64
  whole : ends = true → bytes.length = uncompressedSize64

/-- `*zip.File`, with what opening and reading it does. -/
structure Member where
  name : String
  isDir : Bool
  isSymlink : Bool
  perm : Nat
  uncompressedSize64 : Nat
  opens : Bool
  reader : ZipReader uncompressedSize64

/-- What the archive says of an entry, with its content if it can be read. -/
def Member.zipFile (item : Member) : ZipFile where
  name := item.name
  isDir := item.isDir
  isSymlink := item.isSymlink
  perm := item.perm
  uncompressedSize64 := item.uncompressedSize64
  content := if item.opens = true ∧ item.reader.ends = true then some item.reader.bytes else none

/-- `archiveFile` -/
structure DiskFile where
  path : List String
  disk : Path
  mode : String
  size : Nat
  blobSHA : String
  deriving DecidableEq, Repr

structure Found where
  files : List DiskFile
  skipped : Nat
  total : Nat
  deriving DecidableEq, Repr

/-- `files[name] = file` -/
def setFile (files : List DiskFile) (file : DiskFile) : List DiskFile :=
  file :: files.filter (·.path ≠ file.path)

section

variable (w : World) (sha1 : List UInt8 → String)

/-- The hash over `blob N\\0` and what was read. -/
def blobHash (copied : Nat) (content : Bytes) : String :=
  sha1 (("blob " ++ toString copied).toList.map (fun c => c.toNat.toUInt8) ++ 0 :: content)

/-- What `io.Copy` and then `Close` of the new file give; both have run when either fails. -/
def copyAndClose (disk : Path) (source : Reader) (limit : Nat) : Sys Nat := do
  let copied ← Prog.result (copyFrom w disk source limit)
  let closed ← Prog.result (close w disk)
  let copied ← Prog.read fun _ => copied
  let _ ← Prog.read fun _ => closed
  return copied

def saveUpload (dir : Path) (source : Reader) : Sys Unit := do
  let archivePath := dir ++ ["upload.zip"]
  openNew w archivePath 0o600#9
  let written ← copyAndClose w archivePath source (maxGitHubArchiveSize + 1)
  Prog.check (maxGitHubArchiveSize < written) (.msg "GitHub 导入 ZIP 不能超过 64MB")

/-- The content of an entry is written to a new file; the number of bytes is returned. -/
def writeEntry (disk : Path) (name : List String) (item : Member) : Sys Nat := do
  mkdirAll w disk.dropLast 0o700#9
  Prog.check (item.opens = false) (.msg "zip: unsupported compression algorithm")
  openNew w disk 0o600#9
  let copied ← copyAndClose w disk item.reader.toReader (maxGitHubFileSize + 1)
  Prog.check (maxGitHubFileSize < copied) (.msg ("文件过大：" ++ "/".intercalate name))
  return copied

def extractItem (dir : Path) (root : String) (st : Found) (item : Member) : Sys Found :=
  match normalizeArchivePath item.name root with
  | .error text => Prog.fail (.msg text)
  | .ok none => return { st with skipped := st.skipped + 1 }
  | .ok (some name) =>
    if item.isDir then return st
    else do
      Prog.check item.isSymlink (.msg ("ZIP 包含符号链接：" ++ "/".intercalate name))
      Prog.check (maxGitHubFileSize < item.uncompressedSize64 ∨
          maxGitHubExpanded < st.total + item.uncompressedSize64)
        (.msg "ZIP 解压后的文件体积超过安全限制")
      let disk := dir ++ "files" :: name
      let copied ← writeEntry w disk name item
      -- any of the three execute bits
      let mode := if item.perm &&& 73 ≠ 0 then "100755" else "100644"
      let content ← readFile w disk
      let files := setFile st.files ⟨name, disk, mode, copied, blobHash sha1 copied content.1⟩
      Prog.check (maxGitHubFiles < files.length) (.msg "ZIP 中可提交文件超过 5000 个")
      return { st with files, total := st.total + copied }

def extractItems (dir : Path) (root : String) : List Member → Found → Sys Found
  | [], st => return st
  | item :: rest, st => do
    let st ← extractItem w sha1 dir root st item
    extractItems dir root rest st

/-- `zip.OpenReader`; `unzip` lists what the bytes of an archive hold. -/
def openReader (unzip : Bytes → Option (List Member)) (archivePath : Path) : Sys (List Member) := do
  match ← readFile w archivePath with
  | (_, some _) => Prog.fail (.msg "上传的文件不是有效 ZIP")
  | (bytes, none) =>
    match unzip bytes with
    | none => Prog.fail (.msg "上传的文件不是有效 ZIP")
    | some files => return files

def extractGitHubArchive (unzip : Bytes → Option (List Member)) (source : Reader) (dir : Path) :
    Sys Found := do
  saveUpload w dir source
  let archive ← openReader w unzip (dir ++ ["upload.zip"])
  Prog.check (maxGitHubFiles + 500 < archive.length) (.msg "ZIP 中的文件数量过多")
  let root := commonArchiveRoot (archive.map Member.zipFile)
  let st ← extractItems w sha1 dir root archive ⟨[], 0, 0⟩
  Prog.check (st.files = []) (.msg "ZIP 中没有可提交文件")
  return st

end

/-! ## What lies on the disk -/

variable {w : World} {sha1 : List UInt8 → String} {dir : Path} {base : Loc} {h h' : Host}

/-- Below the directory `files` there are directories and these files, and no links. -/
structure Laid (fs : Fs) (dir : Path) (base : Loc) (files : List (List String × Bytes)) : Prop where
  leads : Leading fs dir base
  only : ∀ l e, fs.entry (base ++ "files" :: l) = some e → e.isDir = true ∨
    l ≠ [] ∧ ∃ attr content, e = .file attr content ∧ (l, content) ∈ files
  there : ∀ f ∈ files, ∃ attr, fs.entry (base ++ "files" :: f.1) = some (.file attr f.2)
  apart : (files.map Prod.fst).Nodup

/-- Where extraction changes anything. -/
def Below (base l : Loc) : Prop := base ++ ["files"] <+: l

theorem below_files (l : Loc) : Below base (base ++ "files" :: l) := ⟨l, by simp⟩

theorem eq_of_below {l : Loc} (hl : Below base l) : ∃ k, l = base ++ "files" :: k := by
  obtain ⟨k, rfl⟩ := hl
  exact ⟨k, by simp⟩

theorem named_files {name : List String} (hname : ∀ part ∈ name, Named part) :
    ∀ part ∈ "files" :: name, Named part := by
  intro part hpart
  rcases List.mem_cons.mp hpart with rfl | hpart
  · exact ⟨by decide, by decide, by decide⟩
  · exact hname part hpart

namespace Laid

variable {fs : Fs} {files : List (List String × Bytes)} {name : List String}

theorem linkless (hl : Laid fs dir base files) {rest : List String} :
    ∀ k e, k ≠ [] → k <+: "files" :: rest → fs.entry (base ++ k) = some e → e.isLink = false := by
  intro k e hk hpre he
  cases k with
  | nil => exact absurd rfl hk
  | cons first l =>
    obtain ⟨rfl, -⟩ := List.cons_prefix_cons.mp hpre
    rcases hl.only l e he with hdir | ⟨-, attr, content, rfl, -⟩
    · cases e <;> first | rfl | cases hdir
    · rfl

theorem follow (hl : Laid fs dir base files) (hname : ∀ part ∈ name, Named part) {l : Loc}
    (h : fs.follow (dir ++ "files" :: name) = .ok l) : l = base ++ "files" :: name :=
  hl.leads.follow_linkless (named_files hname) hl.linkless h

/-- The files stay when directories are made. -/
theorem newDirs {p : Path} {top : Loc} (hl : Laid h.fs dir base files)
    (hnew : NewDirs h h' p top) : Laid h'.fs dir base files := by
  have hkept : ∀ l e, ¬ top <+: l → h'.fs.entry l = some e →
      ∃ e', h.fs.entry l = some e' ∧ e'.untimed = e.untimed := by
    exact fun l e => hnew.within.entry_before
  refine ⟨hl.leads.mono hnew.leads, fun l e he => ?_, fun f hf => ?_, hl.apart⟩
  · by_cases hbelow : top <+: base ++ "files" :: l
    · exact .inl (hnew.dirs _ e hbelow he)
    · obtain ⟨e', he', hun⟩ := hkept _ e hbelow he
      rcases hl.only l e' he' with hdir | ⟨hne, attr, content, rfl, hmem⟩
      · exact .inl (isDir_of_untimed hun ▸ hdir)
      · exact .inr ⟨hne, attr, content, eq_of_untimed hun.symm rfl, hmem⟩
  · obtain ⟨attr, hattr⟩ := hl.there f hf
    refine ⟨attr, hnew.within.eq_of_not_dir (fun hbelow => ?_) hattr rfl⟩
    obtain ⟨more, hmore⟩ := hbelow
    rw [← hmore, Fs.none_of_none hnew.free] at hattr
    cases hattr

/-- A file is new at its place. -/
theorem made (hl : Laid h.fs dir base files) {v : h.fs.Vacant} {attr : Attr} (hne : name ≠ [])
    (hloc : v.loc = base ++ "files" :: name) :
    Laid (h.made w v (.file attr [])).fs dir base ((name, []) :: files) := by
  have hfree : h.fs.entry (base ++ "files" :: name) = none := hloc ▸ v.free
  have hwithin := within_made (w := w) v (.file attr [])
  have hnew : (h.made w v (.file attr [])).fs.entry (base ++ "files" :: name) =
      some (.file attr []) := hloc ▸ entry_made_of_not_dir rfl
  refine ⟨hl.leads.mono leads_made, fun l e he => ?_, fun f hf => ?_, ?_⟩
  · by_cases hl' : l = name
    · subst hl'
      rw [hnew] at he
      cases he
      exact .inr ⟨hne, attr, [], rfl, List.mem_cons_self⟩
    · have hout : base ++ "files" :: l ≠ v.loc := by
        rw [hloc]
        simpa using hl'
      obtain ⟨e', he', hun⟩ := hwithin.entry_before hout he
      rcases hl.only l e' he' with hdir | ⟨hne', attr', content, rfl, hmem⟩
      · exact .inl (isDir_of_untimed hun ▸ hdir)
      · exact .inr ⟨hne', attr', content, eq_of_untimed hun.symm rfl, List.mem_cons_of_mem _ hmem⟩
  · rcases List.mem_cons.mp hf with rfl | hf
    · exact ⟨attr, hnew⟩
    · obtain ⟨attr', hattr⟩ := hl.there f hf
      refine ⟨attr', hwithin.eq_of_not_dir (fun heq => ?_) hattr rfl⟩
      rw [heq, show h.fs.entry v.loc = none from v.free] at hattr
      cases hattr
  · refine List.nodup_cons.mpr ⟨fun hmem => ?_, hl.apart⟩
    obtain ⟨f, hf, rfl⟩ := List.mem_map.mp hmem
    obtain ⟨attr', hattr⟩ := hl.there f hf
    rw [hfree] at hattr
    cases hattr

/-- Bytes go to the end of a file. -/
theorem append {content : Bytes} (hl : Laid h.fs dir base ((name, content) :: files))
    (bytes : Bytes) :
    Laid (appendTo w (dir ++ "files" :: name) bytes h).fs dir base
        ((name, content ++ bytes) :: files) ∧
      h.Within (Below base) (appendTo w (dir ++ "files" :: name) bytes h) := by
  obtain ⟨attr, hattr⟩ := hl.there _ List.mem_cons_self
  have hfollow := hl.leads.follow_entry hattr rfl
  have hwithin := within_appendTo (w := w) bytes hfollow
  have hnew := entry_appendTo (w := w) bytes hfollow hattr (base ++ "files" :: name)
  rw [if_pos rfl] at hnew
  have hother : ∀ l, l ≠ name → (base ++ "files" :: l : Loc) ≠ base ++ "files" :: name := by
    intro l hne heq
    exact hne (List.cons.inj (List.append_cancel_left heq)).2
  refine ⟨⟨hl.leads.mono (leads_appendTo bytes hfollow hattr), fun l e he => ?_,
    fun f hf => ?_, hl.apart⟩, hwithin.mono fun l hl' => hl' ▸ below_files name⟩
  · by_cases heq : l = name
    · subst heq
      rw [hnew] at he
      cases he
      rcases hl.only l _ hattr with hdir | ⟨hne, -⟩
      · cases hdir
      · exact .inr ⟨hne, _, _, rfl, List.mem_cons_self⟩
    · obtain ⟨e', he', hun⟩ := hwithin.entry_before (hother l heq) he
      rcases hl.only l e' he' with hdir | ⟨hne, attr'', content', rfl, hmem⟩
      · exact .inl (isDir_of_untimed hun ▸ hdir)
      · refine .inr ⟨hne, attr'', content', eq_of_untimed hun.symm rfl, ?_⟩
        refine List.mem_cons_of_mem _ ((List.mem_cons.mp hmem).resolve_left fun hpair => ?_)
        exact heq (Prod.mk.inj hpair).1
  · rcases List.mem_cons.mp hf with rfl | hf
    · exact ⟨_, hnew⟩
    · obtain ⟨attr'', hattr''⟩ := hl.there f (List.mem_cons_of_mem _ hf)
      refine ⟨attr'', hwithin.eq_of_not_dir (hother f.1 fun heq => ?_) hattr'' rfl⟩
      have hmem : f.1 ∈ files.map Prod.fst := List.mem_map_of_mem hf
      exact (List.nodup_cons.mp hl.apart).1 (heq ▸ hmem)

/-- The bytes on the disk are those of the files. -/
theorem bytes (hl : Laid fs dir base files) :
    fs.bytesBelow (base ++ ["files"]) ≤ (files.map fun f => f.2.length).sum := by
  have hle : fs.bytesBelow (base ++ ["files"]) ≤
      ((files.map fun f => (base ++ "files" :: f.1, f.2.length)).map Prod.snd).sum := by
    refine Fs.bytesBelow_le fun k attr content hk he => ?_
    obtain ⟨l, rfl⟩ := eq_of_below hk
    rcases hl.only l _ he with hdir | ⟨-, attr', content', heq, hmem⟩
    · cases hdir
    · cases heq
      exact List.mem_map.mpr ⟨(l, content), hmem, rfl⟩
  rwa [List.map_map] at hle

end Laid

/-! ## What an entry becomes -/

section

variable {files : List (List String × Bytes)} {name : List String} {item : Member}

/-- An extraction has gone on: these files are laid, and nothing else has changed. -/
structure Going (h h' : Host) (dir : Path) (base : Loc) (files : List (List String × Bytes)) :
    Prop where
  laid : Laid h'.fs dir base files
  within : h.Within (Below base) h'

theorem Going.still {h₂ : Host} (hg : Going h h' dir base files) (hs : h'.Still h₂) :
    Going h h₂ dir base files :=
  ⟨hs.1 ▸ hg.laid, hg.within.trans (.of_eq hs.1 hs.2)⟩

theorem Going.append {content : Bytes} (hg : Going h h' dir base ((name, content) :: files))
    (bytes : Bytes) :
    Going h (appendTo w (dir ++ "files" :: name) bytes h') dir base
      ((name, content ++ bytes) :: files) := by
  obtain ⟨hlaid, hwithin⟩ := hg.laid.append (w := w) bytes
  exact ⟨hlaid, hg.within.trans hwithin⟩

theorem Going.prepared {p : Path} (hl : Laid h.fs dir base files)
    (hnamed : ∀ part ∈ dir ++ "files" :: p, Named part)
    (hp : Prepared h h' (dir ++ "files" :: p)) : Going h h' dir base files := by
  rcases hp with hstill | ⟨top, hnew⟩
  · exact ⟨hstill.1 ▸ hl, .of_eq hstill.1 hstill.2⟩
  · refine ⟨hl.newDirs hnew, hnew.within.mono fun l htop => ?_⟩
    obtain ⟨k, hk, hpre, rfl⟩ := hnew.top_below hl.leads hnamed hl.linkless
    cases k with
    | nil => exact absurd rfl hk
    | cons first k =>
      obtain ⟨rfl, -⟩ := List.cons_prefix_cons.mp hpre
      obtain ⟨more, rfl⟩ := htop
      exact ⟨k ++ more, by simp⟩

/-- The place of a new file is the one its path says. -/
theorem Laid.vacant_loc {v : h.fs.Vacant} (hl : Laid h.fs dir base files) (hne : name ≠ [])
    (hname : ∀ part ∈ name, Named part) (hv : h.fs.vacant (dir ++ "files" :: name) = .ok v) :
    v.loc = base ++ "files" :: name := by
  have hsplit := List.dropLast_append_getLast hne
  rw [← hsplit, show dir ++ "files" :: (name.dropLast ++ [name.getLast hne]) =
    (dir ++ "files" :: name.dropLast) ++ [name.getLast hne] by simp] at hv
  obtain ⟨hfollow, -, hloc⟩ := Fs.vacant_concat_ok hv
  have hdir := hl.follow (fun part hpart => hname part (List.dropLast_subset _ hpart)) hfollow
  rw [hloc, hdir, List.append_assoc, List.cons_append, hsplit]

/-- The bytes the files hold. -/
def heldBytes (files : List (List String × Bytes)) : Nat := (files.map fun f => f.2.length).sum

theorem Going.trans {h₂ : Host} {files₂ : List (List String × Bytes)}
    (hg : Going h h' dir base files) (hg' : Going h' h₂ dir base files₂) :
    Going h h₂ dir base files₂ := ⟨hg'.laid, hg.within.trans hg'.within⟩

/-- A new file is at the place its path says. -/
theorem ends_openNew {perm : BitVec 9} (hl : Laid h.fs dir base files) (hne : name ≠ [])
    (hname : ∀ part ∈ name, Named part) :
    Prog.Ends (openNew w (dir ++ "files" :: name) perm) h
      (fun _ h' => Going h h' dir base ((name, []) :: files)) (fun _ h' => h' = h) := by
  refine ends_make (fun errno _ => rfl) fun v _ hv => ?_
  have hloc := hl.vacant_loc hne hname hv
  refine ⟨hl.made hne hloc, (within_made v _).mono fun k hk => ?_⟩
  rw [hk, hloc]
  exact below_files name

theorem ends_copyAndClose {disk : Path} {r : Reader} {limit : Nat} {Q : Nat → Host → Prop}
    {E : Err → Host → Prop}
    (hE : ∀ err n h', (appendTo w disk ((r.bytes.take limit).take n) h).Still h' → E err h')
    (hQ : r.bytes.length < limit → r.ends = true →
      ∀ h', (appendTo w disk r.bytes h).Still h' → Q r.bytes.length h')
    (hlimit : limit ≤ r.bytes.length →
      ∀ h', (appendTo w disk (r.bytes.take limit) h).Still h' → Q limit h') :
    Prog.Ends (copyAndClose w disk r limit) h Q E := by
  have hwhole : ∀ err h', (appendTo w disk (r.bytes.take limit) h).Still h' → E err h' := by
    intro err h' hstill
    refine hE err limit h' ?_
    rwa [List.take_take, Nat.min_self]
  -- the file is closed, and then the first of the two errors counts
  have hrest : ∀ (copied : Except Err Nat) h₁,
      (∀ err h', h₁.Still h' → E err h') → (∀ n h', copied = .ok n → h₁.Still h' → Q n h') →
        Prog.Ends (do
          let closed ← Prog.result (close w disk)
          let copied ← Prog.read fun _ => copied
          let _ ← Prog.read fun _ => closed
          return copied) h₁ Q E := by
    intro copied h₁ herr hok
    rw [Prog.ends_bind, Prog.ends_result]
    refine ends_look (fun errno => ?_) fun _ h₂ hstill _ => ?_
    · rw [Prog.ends_bind, Prog.ends_read]
      refine ⟨fun n _ => ?_, fun err _ => herr err h₁ (.refl h₁)⟩
      rw [Prog.ends_bind, Prog.ends_read]
      refine ⟨fun _ hclosed => ?_, fun err _ => herr err h₁ (.refl h₁)⟩
      cases hclosed
    · rw [Prog.ends_bind, Prog.ends_read]
      refine ⟨fun n hn => ?_, fun err _ => herr err h₂ hstill⟩
      rw [Prog.ends_bind, Prog.ends_read]
      exact ⟨fun _ _ => Prog.ends_pure.mpr (hok n h₂ hn hstill), fun err _ => herr err h₂ hstill⟩
  unfold copyAndClose
  rw [Prog.ends_bind, Prog.ends_result]
  refine ends_copyFrom (fun err n => ?_) (fun hlen hends => ?_) fun hlen => ?_
  · refine hrest _ _ (fun err' h' hstill => hE err' n h' hstill) fun n' h' hok => ?_
    cases hok
  · refine hrest _ _ (fun err h' hstill => hwhole err h' ?_) fun n h' hok hstill => ?_
    · rwa [List.take_of_length_le (Nat.le_of_lt hlen)]
    · cases hok
      exact hQ hlen hends h' hstill
  · refine hrest _ _ (fun err h' hstill => hwhole err h' hstill) fun n h' hok hstill => ?_
    cases hok
    exact hlimit hlen h' hstill

/-- An entry that was written is a file of its own with all the bytes of the entry; one that was
not has left at most as many bytes as it declares. -/
theorem ends_writeEntry (hl : Laid h.fs dir base files) (hdir : ∀ part ∈ dir, Named part)
    (hne : name ≠ []) (hname : ∀ part ∈ name, Named part) :
    Prog.Ends (writeEntry w (dir ++ "files" :: name) name item) h
      (fun copied h' => Going h h' dir base ((name, item.reader.bytes) :: files) ∧
        item.opens = true ∧ item.reader.ends = true ∧ copied = item.reader.bytes.length ∧
          copied ≤ maxGitHubFileSize)
      (fun _ h' => ∃ files', Going h h' dir base files' ∧
        heldBytes files' ≤ heldBytes files + item.uncompressedSize64) := by
  have hparent : (dir ++ "files" :: name).dropLast = dir ++ "files" :: name.dropLast := by
    rw [List.dropLast_append_of_ne_nil (by simp), List.dropLast_cons_of_ne_nil hne]
  have hnamed : ∀ part ∈ dir ++ "files" :: name.dropLast, Named part := by
    intro part hpart
    rcases List.mem_append.mp hpart with hpart | hpart
    · exact hdir part hpart
    · exact named_files (fun other hother => hname other (List.dropLast_subset _ hother)) part hpart
  -- whatever part of the entry was written, it is no longer than the entry
  have hpart : ∀ bytes h₃, bytes <+: item.reader.bytes →
      Going h h₃ dir base ((name, bytes) :: files) → ∃ files', Going h h₃ dir base files' ∧
        heldBytes files' ≤ heldBytes files + item.uncompressedSize64 := by
    intro bytes h₃ hpre hg
    refine ⟨_, hg, ?_⟩
    have hshort := hpre.length_le.trans item.reader.short
    simp only [heldBytes, List.map_cons, List.sum_cons]
    omega
  unfold writeEntry
  rw [hparent, Prog.ends_bind]
  refine (ends_mkdirAll hnamed h).mono (fun _ h₁ hmade => ?_)
    fun _ h₁ hprep => ⟨files, .prepared hl hnamed hprep, Nat.le_add_right _ _⟩
  obtain ⟨l, hmade⟩ := hmade
  have hg₁ : Going h h₁ dir base files := .prepared hl hnamed hmade.prepared
  rw [Prog.ends_bind, Prog.ends_check]
  refine ⟨fun _ => ⟨files, hg₁, Nat.le_add_right _ _⟩, fun hopens => ?_⟩
  rw [Prog.ends_bind]
  refine (ends_openNew hg₁.laid hne hname).mono (fun _ h₂ hg₂ => ?_)
    fun _ h₂ hsame => ⟨files, hsame ▸ hg₁, Nat.le_add_right _ _⟩
  have hcopied : ∀ bytes, Going h (appendTo w (dir ++ "files" :: name) bytes h₂) dir base
      ((name, bytes) :: files) := fun bytes => by
    have happend := (hg₁.trans hg₂).append (w := w) bytes
    rwa [List.nil_append] at happend
  rw [Prog.ends_bind]
  refine ends_copyAndClose (fun err n h₃ hstill => ?_) (fun hlen hends h₃ hstill => ?_)
    fun hlen h₃ hstill => ?_
  · exact hpart _ _ ((List.take_prefix _ _).trans (List.take_prefix _ _)) ((hcopied _).still hstill)
  · have hg := (hcopied item.reader.bytes).still hstill
    rw [Prog.ends_bind, Prog.ends_check]
    exact ⟨fun _ => hpart _ _ (List.prefix_refl _) hg, fun hsmall => Prog.ends_pure.mpr
      ⟨hg, by simpa using hopens, hends, rfl, Nat.le_of_not_lt hsmall⟩⟩
  · have hg := (hcopied (item.reader.bytes.take (maxGitHubFileSize + 1))).still hstill
    rw [Prog.ends_bind, Prog.ends_check]
    exact ⟨fun _ => hpart _ _ (List.take_prefix _ _) hg,
      fun hsmall => absurd (Nat.lt_succ_self _) hsmall⟩

end

/-! ## Against the model without a disk -/

section

variable {root : String} {st st' : Found} {ex ex' : Extracted} {item : Member}

/-- The paths and contents of the files that were found. -/
def contents (ex : Extracted) : List (List String × Bytes) := ex.files.map fun f => (f.path, f.content)

/-- The files on the disk are the ones of the model, each at the place of its path. -/
structure Matches (dir : Path) (st : Found) (ex : Extracted) : Prop where
  files : st.files.map (fun f => (f.path, f.disk, f.mode, f.size)) =
    ex.files.map fun f => (f.path, dir ++ "files" :: f.path, f.mode, f.size)
  skipped : st.skipped = ex.skipped
  total : st.total = ex.total

theorem Matches.paths (hm : Matches dir st ex) :
    st.files.map (·.path) = (contents ex).map Prod.fst := by
  have hfiles := congrArg (List.map Prod.fst) hm.files
  simpa only [contents, List.map_map, Function.comp_def] using hfiles

/-- A file that is on the disk beside others had a free place. -/
theorem Laid.createExcl {fs : Fs} {files : List (List String × Bytes)} {name : List String}
    {content : Bytes} (hl : Laid fs dir base ((name, content) :: files)) :
    createExcl (files.map Prod.fst) name = .ok () := by
  obtain ⟨attr, hattr⟩ := hl.there _ List.mem_cons_self
  have hnot := (List.nodup_cons.mp hl.apart).1
  unfold Archive.createExcl
  rw [if_neg, if_neg]
  · intro hany
    obtain ⟨path, hpath, hpre⟩ := List.any_eq_true.mp hany
    obtain ⟨f, hf, rfl⟩ := List.mem_map.mp hpath
    obtain ⟨below, hbelow⟩ : name <+: f.1 := by simpa using hpre
    obtain ⟨attr', hattr'⟩ := hl.there f (List.mem_cons_of_mem _ hf)
    cases below with
    | nil =>
      rw [List.append_nil] at hbelow
      exact hnot (hbelow ▸ hpath)
    | cons part below =>
      rw [← hbelow, show base ++ "files" :: (name ++ part :: below) =
        (base ++ "files" :: name) ++ part :: below by simp] at hattr'
      obtain ⟨attr'', hdir⟩ := Fs.dir_of_below (by simp) hattr'
      rw [hattr] at hdir
      cases hdir
  · intro hany
    obtain ⟨path, hpath, hpre⟩ := List.any_eq_true.mp hany
    obtain ⟨f, hf, rfl⟩ := List.mem_map.mp hpath
    obtain ⟨⟨below, hbelow⟩, hne⟩ : f.1 <+: name ∧ f.1 ≠ name := by simpa using hpre
    obtain ⟨attr', hattr'⟩ := hl.there f (List.mem_cons_of_mem _ hf)
    have hnil : below ≠ [] := by
      intro hnil
      rw [hnil, List.append_nil] at hbelow
      exact hne hbelow
    rw [← hbelow, show base ++ "files" :: (f.1 ++ below) = (base ++ "files" :: f.1) ++ below by
      simp] at hattr
    obtain ⟨attr'', hdir⟩ := Fs.dir_of_below hnil hattr
    rw [hattr'] at hdir
    cases hdir

theorem setFile_eq {files : List DiskFile} {file : DiskFile}
    (h : file.path ∉ files.map (·.path)) : setFile files file = file :: files := by
  unfold setFile
  rw [List.filter_eq_self.mpr fun f hf => ?_]
  simp only [ne_eq, decide_eq_true_eq]
  intro heq
  exact h (heq ▸ List.mem_map_of_mem hf)

/-- An entry does on the disk what it does in the model; one that fails leaves at most one file more
than there was. -/
theorem ends_extractItem (hl : Laid h.fs dir base (contents ex)) (hm : Matches dir st ex)
    (hdir : ∀ part ∈ dir, Named part) :
    Prog.Ends (extractItem w sha1 dir root st item) h
      (fun st' h' => ∃ ex', Archive.extractItem sha1 root ex item.zipFile = .ok ex' ∧
        Matches dir st' ex' ∧ Going h h' dir base (contents ex'))
      (fun _ h' => ∃ files', Going h h' dir base files' ∧
        heldBytes files' ≤ heldBytes (contents ex) + maxGitHubFileSize) := by
  have hsame : Going h h dir base (contents ex) := ⟨hl, .refl h⟩
  have hnone : ∃ files', Going h h dir base files' ∧
      heldBytes files' ≤ heldBytes (contents ex) + maxGitHubFileSize :=
    ⟨_, hsame, Nat.le_add_right _ _⟩
  unfold extractItem
  cases hnorm : normalizeArchivePath item.name root with
  | error text => exact hnone
  | ok found =>
    cases found with
    | none =>
      refine ⟨{ ex with skipped := ex.skipped + 1 }, ?_, ⟨hm.files, ?_, hm.total⟩, hsame⟩
      · unfold Archive.extractItem
        rw [show item.zipFile.name = item.name from rfl, hnorm]
        rfl
      · exact congrArg (· + 1) hm.skipped
    | some name =>
      obtain ⟨hne, hname⟩ := normalize_named hnorm
      dsimp only
      rw [Prog.ends_ite]
      refine ⟨fun hisDir => ?_, fun hnotDir => ?_⟩
      · refine ⟨ex, ?_, hm, hsame⟩
        unfold Archive.extractItem
        rw [show item.zipFile.name = item.name from rfl, hnorm,
          show item.zipFile.isDir = item.isDir from rfl, hisDir]
        rfl
      · rw [Prog.ends_bind, Prog.ends_check]
        refine ⟨fun _ => hnone, fun hlink => ?_⟩
        rw [Prog.ends_bind, Prog.ends_check]
        refine ⟨fun _ => hnone, fun hsize => ?_⟩
        obtain ⟨hdeclared, hroom⟩ := not_or.mp hsize
        rw [Prog.ends_bind]
        refine (ends_writeEntry hl hdir hne hname).mono (fun copied h₁ hwritten => ?_)
          fun _ h₁ ⟨files', hg, hheld⟩ => ⟨files', hg, by omega⟩
        obtain ⟨hg, hopens, hends, rfl, hsmall⟩ := hwritten
        rw [Prog.ends_bind]
        refine ends_readFile fun content h₂ hstill _ => ?_
        have hg₂ := hg.still hstill
        have hnew : name ∉ st.files.map (·.path) :=
          hm.paths ▸ (List.nodup_cons.mp hg.laid.apart).1
        rw [Prog.ends_bind, Prog.ends_check, setFile_eq hnew]
        refine ⟨fun _ => ⟨_, hg₂, ?_⟩, fun hcount => Prog.ends_pure.mpr ?_⟩
        · simp only [heldBytes, List.map_cons, List.sum_cons]
          omega
        · have hlen : st.files.length = ex.files.length := by
            simpa using congrArg List.length hm.files
          have himp : Importable root ex item.zipFile name item.reader.bytes := {
            path := importedPath_eq_some.mpr ⟨hnorm, by simpa [Member.zipFile] using hnotDir⟩
            notLink := by simpa [Member.zipFile] using hlink
            declared := Nat.le_of_not_lt hdeclared
            room := hm.total ▸ Nat.le_of_not_lt hroom
            free := by
              have hfree := hg.laid.createExcl
              rwa [contents, List.map_map] at hfree
            readable := if_pos ⟨hopens, hends⟩
            small := hsmall
            count := hlen ▸ Nat.le_of_not_lt hcount }
          refine ⟨_, himp.extractItem, ⟨?_, hm.skipped, ?_⟩, hg₂⟩
          · exact congrArg (List.cons _) hm.files
          · exact congrArg (· + item.reader.bytes.length) hm.total

/-- The same of all entries. -/
theorem ends_extractItems {items : List Member} (hl : Laid h.fs dir base (contents ex))
    (hm : Matches dir st ex) (hdir : ∀ part ∈ dir, Named part) :
    Prog.Ends (extractItems w sha1 dir root items st) h
      (fun st' h' => ∃ ex',
        (items.map Member.zipFile).foldlM (Archive.extractItem sha1 root) ex = .ok ex' ∧
          Matches dir st' ex' ∧ Going h h' dir base (contents ex'))
      (fun _ h' => ∃ done ex' files', done <+: items.map Member.zipFile ∧
        done.foldlM (Archive.extractItem sha1 root) ex = .ok ex' ∧ Going h h' dir base files' ∧
          heldBytes files' ≤ heldBytes (contents ex') + maxGitHubFileSize) := by
  induction items generalizing st ex h with
  | nil => exact ⟨ex, rfl, hm, hl, .refl h⟩
  | cons item rest ih =>
    rw [extractItems, Prog.ends_bind]
    refine (ends_extractItem hl hm hdir).mono (fun st₁ h₁ hitem => ?_) fun _ h₁ herr => ?_
    · obtain ⟨ex₁, hex₁, hm₁, hg₁⟩ := hitem
      refine (ih hg₁.laid hm₁).mono (fun st₂ h₂ hrest => ?_) fun _ h₂ herr => ?_
      · obtain ⟨ex₂, hex₂, hm₂, hg₂⟩ := hrest
        refine ⟨ex₂, ?_, hm₂, hg₁.trans hg₂⟩
        rw [List.map_cons, List.foldlM_cons, hex₁]
        exact hex₂
      · obtain ⟨done, ex₂, files', hdone, hex₂, hg₂, hheld⟩ := herr
        refine ⟨item.zipFile :: done, ex₂, files', List.cons_prefix_cons.mpr ⟨rfl, hdone⟩, ?_,
          hg₁.trans hg₂, hheld⟩
        rw [List.foldlM_cons, hex₁]
        exact hex₂
    · obtain ⟨files', hg, hheld⟩ := herr
      exact ⟨[], ex, files', List.nil_prefix, rfl, hg, hheld⟩

end

/-! ## The whole extraction -/

section

variable {source : Reader} {unzip : Bytes → Option (List Member)} {root : String}

/-- A new directory, as `os.MkdirTemp` leaves it. -/
structure Fresh (h : Host) (dir : Path) (base : Loc) : Prop where
  named : ∀ part ∈ dir, Named part
  leads : Leading h.fs dir base
  empty : ∀ name, h.fs.entry (base ++ [name]) = none

/-- The upload, or a part of it, was saved, and nothing else has changed. -/
structure Saved (h h' : Host) (dir : Path) (base : Loc) (bytes : Bytes) : Prop where
  leads : Leading h'.fs dir base
  upload : ∀ e, h'.fs.entry (base ++ ["upload.zip"]) = some e → ∃ attr, e = .file attr bytes
  within : h.Within (· = base ++ ["upload.zip"]) h'

theorem Saved.still {h₂ : Host} {bytes : Bytes} (hs : Saved h h' dir base bytes)
    (hstill : h'.Still h₂) : Saved h h₂ dir base bytes :=
  ⟨hstill.1 ▸ hs.leads, hstill.1 ▸ hs.upload, hs.within.trans (.of_eq hstill.1 hstill.2)⟩

theorem Fresh.saved (hf : Fresh h dir base) : Saved h h dir base [] := by
  refine ⟨hf.leads, fun e he => ?_, .refl h⟩
  rw [hf.empty] at he
  cases he

/-- Bytes go to the saved upload. -/
theorem saved_append {attr : Attr} {bytes : Bytes} (hs : Saved h h' dir base [])
    (hattr : h'.fs.entry (base ++ ["upload.zip"]) = some (.file attr [])) :
    Saved h (appendTo w (dir ++ ["upload.zip"]) bytes h') dir base bytes := by
  have hfollow := hs.leads.follow_entry hattr rfl
  have hwithin := within_appendTo (w := w) bytes hfollow
  refine ⟨hs.leads.mono (leads_appendTo bytes hfollow hattr), fun e he => ?_,
    hs.within.trans hwithin⟩
  rw [entry_appendTo bytes hfollow hattr, if_pos rfl] at he
  cases he
  exact ⟨_, rfl⟩

theorem ends_saveUpload (hf : Fresh h dir base) :
    Prog.Ends (saveUpload w dir source) h
      (fun _ h' => Saved h h' dir base source.bytes ∧ source.bytes.length ≤ maxGitHubArchiveSize)
      (fun _ h' => ∃ bytes, bytes <+: source.bytes ∧ Saved h h' dir base bytes) := by
  unfold saveUpload
  rw [Prog.ends_bind]
  refine ends_make (fun errno _ => ⟨[], List.nil_prefix, hf.saved⟩) fun v _ hv => ?_
  obtain ⟨hfollow, -, hloc⟩ := Fs.vacant_concat_ok hv
  obtain rfl : base = v.dir := Except.ok.inj (hf.leads.leads.symm.trans hfollow)
  have hnew := fun attr => entry_made_of_not_dir (w := w) (v := v) (e := .file attr []) rfl
  have hs : ∀ attr, Saved h (h.made w v (.file attr [])) dir v.dir [] := by
    intro attr
    refine ⟨hf.leads.mono leads_made, fun e he => ?_, hloc ▸ within_made v _⟩
    rw [← hloc, hnew] at he
    cases he
    exact ⟨attr, rfl⟩
  have happend : ∀ attr bytes, Saved h (appendTo w (dir ++ ["upload.zip"]) bytes
      (h.made w v (.file attr []))) dir v.dir bytes := fun attr _ =>
    saved_append (hs attr) (hloc ▸ hnew attr)
  rw [Prog.ends_bind]
  refine ends_copyAndClose (fun err n h₁ hstill => ?_) (fun hlen hends h₁ hstill => ?_)
    fun hlen h₁ hstill => ?_
  · exact ⟨_, (List.take_prefix _ _).trans (List.take_prefix _ _), (happend _ _).still hstill⟩
  · have hsaved := (happend _ _).still hstill
    rw [Prog.ends_check]
    exact ⟨fun _ => ⟨_, List.prefix_refl _, hsaved⟩, fun hsmall => ⟨hsaved, Nat.le_of_not_lt hsmall⟩⟩
  · have hsaved := (happend _ _).still hstill
    rw [Prog.ends_check]
    exact ⟨fun _ => ⟨_, List.take_prefix _ _, hsaved⟩,
      fun hsmall => absurd (Nat.lt_succ_self _) hsmall⟩

/-- Where the upload was saved, no file is laid. -/
theorem Saved.laid {bytes : Bytes} (hs : Saved h h' dir base bytes) (hf : Fresh h dir base) :
    Laid h'.fs dir base [] := by
  have hnone : h'.fs.entry (base ++ ["files"]) = none :=
    (hs.within.none_iff (by simp)).mpr (hf.empty "files")
  refine ⟨hs.leads, fun l e he => ?_, fun f hf => ?_, .nil⟩
  · rw [show base ++ "files" :: l = (base ++ ["files"]) ++ l by simp, Fs.none_of_none hnone] at he
    cases he
  · cases hf

theorem ends_openReader {bytes : Bytes} (hs : Saved h h' dir base bytes) :
    Prog.Ends (openReader w unzip (dir ++ ["upload.zip"])) h'
      (fun items h'' => h'.Still h'' ∧ unzip bytes = some items) (fun _ h'' => h'.Still h'') := by
  unfold openReader
  rw [Prog.ends_bind]
  refine ends_readFile fun r h'' hstill hr => ?_
  obtain ⟨read, err⟩ := r
  cases err with
  | some err => exact hstill
  | none =>
    obtain ⟨l, hl, hread⟩ := hr rfl
    obtain ⟨d, hd, -, e, he, hplain⟩ :=
      Fs.follow_concat_ok ⟨by decide, by decide, by decide⟩ hl
    obtain rfl : base = d := Except.ok.inj (hs.leads.leads.symm.trans hd)
    obtain ⟨attr, rfl⟩ := hs.upload e he
    rw [hplain rfl, contentAt, he] at hread
    cases hread
    dsimp only
    cases hzip : unzip read with
    | none => exact hstill
    | some items => exact ⟨hstill, rfl⟩

/-- What holds of the disk at every end, and at any other moment: any call may be the one that
fails, and nothing is undone. -/
structure Safe (source : Reader) (base : Loc) (h h' : Host) : Prop where
  within : h.Within (fun l => l = base ++ ["upload.zip"] ∨ Below base l) h'
  upload : ∀ e, h'.fs.entry (base ++ ["upload.zip"]) = some e →
    ∃ attr content, e = .file attr content ∧ content <+: source.bytes
  plain : ∀ l e, Below base l → h'.fs.entry l = some e →
    e.isDir = true ∨ l ≠ base ++ ["files"] ∧ ∃ attr content, e = .file attr content
  bytes : h'.fs.bytesBelow (base ++ ["files"]) ≤ maxGitHubExpanded + maxGitHubFileSize

theorem Saved.safe {bytes : Bytes} (hs : Saved h h' dir base bytes)
    (hbytes : bytes <+: source.bytes) {h₂ : Host} {files : List (List String × Bytes)}
    (hg : Going h' h₂ dir base files)
    (hheld : heldBytes files ≤ maxGitHubExpanded + maxGitHubFileSize) : Safe source base h h₂ := by
  refine ⟨(hs.within.mono fun l => .inl).trans (hg.within.mono fun l => .inr), fun e he => ?_,
    fun l e hl he => ?_, hg.laid.bytes.trans hheld⟩
  · have hout : ¬ Below base (base ++ ["upload.zip"]) := by simp [Below]
    cases he' : h'.fs.entry (base ++ ["upload.zip"]) with
    | none =>
      rw [(hg.within.none_iff hout).mpr he'] at he
      cases he
    | some e' =>
      obtain ⟨attr, rfl⟩ := hs.upload e' he'
      rw [hg.within.eq_of_not_dir hout he' rfl] at he
      cases he
      exact ⟨attr, bytes, rfl, hbytes⟩
  · obtain ⟨k, rfl⟩ := eq_of_below hl
    rcases hg.laid.only k e he with hdir | ⟨hne, attr, content, rfl, -⟩
    · exact .inl hdir
    · exact .inr ⟨by simpa using hne, attr, content, rfl⟩

theorem Member.honest (item : Member) : item.zipFile.Honest := by
  intro content hcontent
  unfold Member.zipFile at hcontent
  dsimp only at hcontent
  split at hcontent
  · rename_i hreads
    cases hcontent
    exact item.reader.whole hreads.2
  · cases hcontent

theorem heldBytes_contents {ex : Extracted} (hb : Bounded ex) :
    heldBytes (contents ex) = ex.total := by
  rw [heldBytes, contents, List.map_map, hb.total]
  exact congrArg List.sum (List.map_congr_left fun f hf => (hb.sizes f hf).1.symm)

/-- The extraction does on the disk what it does in the model, and is safe at every end. -/
theorem ends_extract (hf : Fresh h dir base) :
    Prog.Ends (extractGitHubArchive w sha1 unzip source dir) h
      (fun st h' => Safe source base h h' ∧ ∃ items ex, unzip source.bytes = some items ∧
        Archive.extractGitHubArchive sha1 source.bytes.length (some (items.map Member.zipFile)) =
          .ok ex ∧ Matches dir st ex ∧ Laid h'.fs dir base (contents ex))
      (fun _ h' => Safe source base h h') := by
  have hbound : maxGitHubExpanded ≤ maxGitHubExpanded + maxGitHubFileSize := Nat.le_add_right _ _
  have hstart : ∀ {bytes h₁}, Saved h h₁ dir base bytes → bytes <+: source.bytes →
      Safe source base h h₁ := fun hs hpre =>
    hs.safe hpre ⟨hs.laid hf, .refl _⟩ (Nat.zero_le _)
  unfold extractGitHubArchive
  rw [Prog.ends_bind]
  refine (ends_saveUpload hf).mono (fun _ h₁ hsaved => ?_)
    fun _ h₁ ⟨bytes, hpre, hs⟩ => hstart hs hpre
  obtain ⟨hs, hsize⟩ := hsaved
  rw [Prog.ends_bind]
  refine (ends_openReader hs).mono (fun items h₂ hopened => ?_)
    fun _ h₂ hstill => hstart (hs.still hstill) (List.prefix_refl _)
  obtain ⟨hstill, hzip⟩ := hopened
  have hs₂ := hs.still hstill
  rw [Prog.ends_bind, Prog.ends_check]
  refine ⟨fun _ => hstart hs₂ (List.prefix_refl _), fun hcount => ?_⟩
  have hhonest : ∀ item ∈ items.map Member.zipFile, item.Honest := by
    intro item hitem
    obtain ⟨member, -, rfl⟩ := List.mem_map.mp hitem
    exact member.honest
  have hheld : ∀ {done ex}, done <+: items.map Member.zipFile →
      done.foldlM (Archive.extractItem sha1 (commonArchiveRoot (items.map Member.zipFile)))
        ⟨[], 0, 0⟩ = .ok ex → heldBytes (contents ex) ≤ maxGitHubExpanded := by
    intro done ex hdone hex
    have hb := Bounded.start.run (fun item hitem => hhonest item (hdone.subset hitem)) hex
    rw [heldBytes_contents hb]
    exact hb.expanded
  have hlaid : Laid h₂.fs dir base (contents ⟨[], 0, 0⟩) := hs₂.laid hf
  rw [Prog.ends_bind]
  refine (ends_extractItems hlaid ⟨rfl, rfl, rfl⟩ hf.named).mono
    (fun st h₃ hdone => ?_) fun _ h₃ herr => ?_
  · obtain ⟨ex, hex, hm, hg⟩ := hdone
    have hsafe : Safe source base h h₃ := hs₂.safe (List.prefix_refl _) hg
      ((hheld (List.prefix_refl _) hex).trans hbound)
    rw [Prog.ends_bind, Prog.ends_check]
    refine ⟨fun _ => hsafe, fun hne => Prog.ends_pure.mpr ⟨hsafe, items, ex, hzip, ?_, hm, hg.laid⟩⟩
    refine extract_eq_ok.mpr ⟨hsize, _, rfl, ?_, hex, fun hnil => hne ?_⟩
    · rw [List.length_map]
      exact Nat.le_of_not_lt hcount
    · have hfiles := hm.files
      rw [hnil] at hfiles
      exact List.map_eq_nil_iff.mp hfiles
  · obtain ⟨done, ex, files', hdone, hex, hg, hle⟩ := herr
    exact hs₂.safe (List.prefix_refl _) hg
      (hle.trans (Nat.add_le_add_right (hheld hdone hex) _))

/-- What a successful extraction has produced. -/
structure Imported (items : List Member) (base : Loc) (st : Found) (h' : Host) : Prop where
  count : st.files.length ≤ maxGitHubFiles
  files : ∀ f ∈ st.files, f.size ≤ maxGitHubFileSize ∧ f.path ≠ [] ∧
    h'.fs.follow f.disk = .ok (base ++ "files" :: f.path) ∧
      ∃ attr content, h'.fs.entry (base ++ "files" :: f.path) = some (.file attr content) ∧
        content.length = f.size
  total : st.total = (st.files.map (·.size)).sum
  expanded : st.total ≤ maxGitHubExpanded
  bytes : h'.fs.bytesBelow (base ++ ["files"]) ≤ st.total
  /-- One file for each entry that has a path. -/
  paths : st.files.map (·.path) = (items.filterMap fun item =>
    importedPath (commonArchiveRoot (items.map Member.zipFile)) item.zipFile).reverse
  /-- No two of these entries have the same path. -/
  once : (items.filterMap fun item =>
    importedPath (commonArchiveRoot (items.map Member.zipFile)) item.zipFile).Nodup

theorem Matches.imported {items : List Member} (hm : Matches dir st ex)
    (hl : Laid h'.fs dir base (contents ex)) (hb : Bounded ex)
    (hcounted : ex.files.map (·.path) = (items.filterMap fun item =>
      importedPath (commonArchiveRoot (items.map Member.zipFile)) item.zipFile).reverse) :
    Imported items base st h' := by
  have hsizes : st.files.map (·.size) = ex.files.map (·.size) := by
    have hfiles := congrArg (List.map fun f => f.2.2.2) hm.files
    simpa only [List.map_map, Function.comp_def] using hfiles
  have hpaths : st.files.map (·.path) = ex.files.map (·.path) := by
    rw [hm.paths, contents, List.map_map]
    rfl
  refine ⟨?_, fun f hf => ?_, ?_, hm.total ▸ hb.expanded, ?_, hpaths.trans hcounted, ?_⟩
  · rw [show st.files.length = ex.files.length by simpa using congrArg List.length hm.files]
    exact hb.count
  · have hmem := List.mem_map_of_mem (f := fun f => (f.path, f.disk, f.mode, f.size)) hf
    rw [hm.files] at hmem
    obtain ⟨g, hg, heq⟩ := List.mem_map.mp hmem
    simp only [Prod.mk.injEq] at heq
    obtain ⟨hpath, hdisk, -, hsize⟩ := heq
    obtain ⟨attr, hattr⟩ := hl.there (g.path, g.content) (List.mem_map_of_mem hg)
    obtain ⟨hlen, hsmall⟩ := hb.sizes g hg
    rw [← hpath, ← hdisk, ← hsize]
    refine ⟨hsmall, fun hnil => ?_, hl.leads.follow_entry hattr rfl, attr, g.content, hattr,
      hlen.symm⟩
    rcases hl.only g.path _ hattr with hdir | ⟨hne, -⟩
    · cases hdir
    · exact hne hnil
  · rw [hm.total, hb.total, hsizes]
  · rw [hm.total, ← heldBytes_contents hb]
    exact hl.bytes
  · have hapart := hl.apart
    rw [← hm.paths, hpaths, hcounted] at hapart
    exact List.nodup_reverse.mp hapart

/-- Every archive is extracted below the directory `files` only, without going through a link and
within the limits, and no two entries that count have the same path. -/
theorem extraction_confined (w : World) (sha1 : List UInt8 → String)
    (unzip : Bytes → Option (List Member)) (source : Reader) (dir : Path) (base : Loc) (h : Host)
    (hf : Fresh h dir base) :
    Safe source base h (extractGitHubArchive w sha1 unzip source dir h).2 ∧
      ∀ st, (extractGitHubArchive w sha1 unzip source dir h).1 = .ok st →
        ∃ items, unzip source.bytes = some items ∧
          Imported items base st (extractGitHubArchive w sha1 unzip source dir h).2 := by
  have hends : Prog.Ends (extractGitHubArchive w sha1 unzip source dir) h _ _ := ends_extract hf
  obtain ⟨hok, herr⟩ := Prog.ends_def.mp hends
  refine ⟨?_, fun st hst => ?_⟩
  · cases hr : (extractGitHubArchive w sha1 unzip source dir h).1 with
    | ok st => exact (hok st hr).1
    | error err => exact herr err hr
  · obtain ⟨-, items, ex, hzip, hex, hm, hl⟩ := hok st hst
    obtain ⟨-, files, hfiles, -, hfold, -⟩ := extract_eq_ok.mp hex
    cases hfiles
    have hhonest : ∀ item ∈ items.map Member.zipFile, item.Honest := by
      intro item hitem
      obtain ⟨member, -, rfl⟩ := List.mem_map.mp hitem
      exact member.honest
    have hpaths := (extractItems_paths hfold).2
    rw [List.map_nil, List.append_nil, List.filterMap_map] at hpaths
    exact ⟨items, hzip, hm.imported hl (Bounded.start.run hhonest hfold) hpaths⟩

end

/-- A directory with nothing in it. -/
def emptyDir : Fs :=
  Fs.ofItems [([], .dir (.ofPerm 0o755#9)), (["t"], .dir (.ofPerm 0o700#9))] (by decide)

theorem fresh_emptyDir : Fresh ⟨emptyDir, 0, []⟩ ["t"] ["t"] := by
  refine ⟨by simp [Named], ⟨by decide, Attr.ofPerm 0o700#9, by decide⟩, fun name => ?_⟩
  simp [emptyDir, Fs.ofItems, List.lookup_cons]

def readmeMember : Member where
  name := "repo-main/README.md"
  isDir := false
  isSymlink := false
  perm := 420
  uncompressedSize64 := 2
  opens := true
  reader := ⟨⟨[104, 105], true⟩, by decide, fun _ => rfl⟩

def readmeUpload : Reader := ⟨[80, 75], true⟩

/-- What `zip.OpenReader` finds in the upload. -/
def readmeArchive (bytes : Bytes) : Option (List Member) :=
  if bytes = readmeUpload.bytes then some [readmeMember] else none

theorem extraction_confined_readme :
    Safe readmeUpload ["t"] ⟨emptyDir, 0, []⟩ (extractGitHubArchive .calm (fun _ => "sha")
        readmeArchive readmeUpload ["t"] ⟨emptyDir, 0, []⟩).2 ∧
      ∀ st, (extractGitHubArchive .calm (fun _ => "sha") readmeArchive readmeUpload ["t"]
          ⟨emptyDir, 0, []⟩).1 = .ok st →
        ∃ items, readmeArchive readmeUpload.bytes = some items ∧ Imported items ["t"] st
          (extractGitHubArchive .calm (fun _ => "sha") readmeArchive readmeUpload ["t"]
            ⟨emptyDir, 0, []⟩).2 :=
  extraction_confined .calm (fun _ => "sha") readmeArchive readmeUpload ["t"] ["t"]
    ⟨emptyDir, 0, []⟩ fresh_emptyDir

end LukePanel.GithubHelper.Extraction
