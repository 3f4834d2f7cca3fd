import LukePanel.GithubHelper.Archive

/-! # The paths an archive is imported under

Which files of an archive become files of the repository, and under which paths: what the importer
makes of the names of the entries, against a definition that looks at the files only. -/
namespace LukePanel.GithubHelper.ImportedPaths
open LukePanel.Library.SlashPath LukePanel.GithubHelper.Archive

/-! ## The reference -/

/-- The elements of the cleaned name of an entry. -/
def partsOf (item : ZipFile) : List String := (cleanName item.name).parts

/-- `__MACOSX` with something under it. -/
def underMacosx (parts : List String) : Bool := isMacMetadata ⟨false, parts⟩

/-- Packaging metadata: what lies under `__MACOSX`, a `.DS_Store`, or what lies under `.git`. -/
def isMetadata (parts : List String) : Bool :=
  underMacosx parts || parts.getLast? == some ".DS_Store" || parts.dropLast.contains ".git"

/-- The entries that name a file of the repository, by their elements. -/
def repositoryFiles (files : List ZipFile) : List (List String) :=
  ((files.filter (!·.isDir)).map partsOf).filter fun parts => parts ≠ [] ∧ isMetadata parts = false

/-- The directory all these files lie in, if it is not one of a repository. -/
def wrapper (entries : List (List String)) : Option String :=
  match entries.head? with
  | some (root :: _ :: _) =>
    if isRepositoryTopLevelDirectory root = false ∧
        ∀ parts ∈ entries, parts.head? = some root ∧ 2 ≤ parts.length then some root
    else none
  | _ => none

/-- The elements without the wrapper they lie below. -/
def unwrap (root : Option String) (parts : List String) : List String :=
  if root.isSome ∧ parts.head? = root then parts.tail else parts

/-- The paths the files of an archive have in the repository. -/
def reference (files : List ZipFile) : List (List String) :=
  (repositoryFiles files).map (unwrap (wrapper (repositoryFiles files)))

/-! ## Where the importer agrees -/

/-- What `normalizeArchivePath` skips. -/
def isSkipped (parts : List String) : Bool :=
  parts.head? == some ".git" || parts == [".DS_Store"] || underMacosx parts

/-- An entry `commonArchiveRoot` looks at, directories included. -/
def Counted (item : ZipFile) : Prop := partsOf item ≠ [] ∧ underMacosx (partsOf item) = false

/-- The entry lies below a directory. -/
def Below (root : String) (item : ZipFile) : Prop := ∃ x rest, partsOf item = root :: x :: rest

/-- Where the files have a wrapper everything else lies below it too, so that there is no entry for
the wrapper itself; metadata lies at the top of the repository, and nothing else is named like it
there. -/
structure Tidy (files : List ZipFile) : Prop where
  wrapped : ∀ root, wrapper (repositoryFiles files) = some root →
    ∀ item ∈ files, Counted item → Below root item
  shallow : ∀ item ∈ files, item.isDir = false → isMetadata (partsOf item) = true →
    isSkipped (unwrap (wrapper (repositoryFiles files)) (partsOf item)) = true
  only : ∀ item ∈ files, item.isDir = false →
    isSkipped (unwrap (wrapper (repositoryFiles files)) (partsOf item)) = true →
      isMetadata (partsOf item) = true

/-! ## Wrappers -/

theorem wrapper_eq_some {entries : List (List String)} {root : String} :
    wrapper entries = some root ↔ entries ≠ [] ∧ isRepositoryTopLevelDirectory root = false ∧
      ∀ parts ∈ entries, ∃ x rest, parts = root :: x :: rest := by
  have hshape : ∀ parts : List String, (parts.head? = some root ∧ 2 ≤ parts.length) ↔
      ∃ x rest, parts = root :: x :: rest := by
    intro parts
    cases parts with
    | nil => simp
    | cons first tail => cases tail <;> simp
  constructor
  · intro h
    unfold wrapper at h
    split at h
    · rename_i first x rest hhead
      split at h
      · rename_i hall
        cases h
        refine ⟨fun hnil => ?_, hall.1, fun parts hparts => (hshape parts).mp (hall.2 parts hparts)⟩
        rw [hnil] at hhead
        cases hhead
      · cases h
    · cases h
  · rintro ⟨hne, htop, hall⟩
    cases entries with
    | nil => exact absurd rfl hne
    | cons parts rest =>
      obtain ⟨x, more, rfl⟩ := hall parts List.mem_cons_self
      unfold wrapper
      exact if_pos ⟨htop, fun other hother => (hshape other).mpr (hall other hother)⟩

theorem unwrap_cons (root x : String) (rest : List String) :
    unwrap (some root) (root :: x :: rest) = x :: rest := by simp [unwrap]

theorem unwrap_none (parts : List String) : unwrap none parts = parts := by simp [unwrap]

theorem isMacMetadata_eq {clean : CleanPath} (h : clean.rooted = false) :
    isMacMetadata clean = underMacosx clean.parts := by
  rw [underMacosx, isMacMetadata, isMacMetadata, h]

theorem Below.unique {first root : String} {item : ZipFile} (h : Below first item)
    (h' : Below root item) : first = root := by
  obtain ⟨x, rest, hparts⟩ := h
  obtain ⟨y, more, hparts'⟩ := h'
  exact (List.cons.inj (hparts.symm.trans hparts')).1

/-! ## One turn of the loop of `commonArchiveRoot` -/

section

variable {item : ZipFile} {items : List ZipFile} {seen : Option String} {root : String}

theorem commonRoot_nil_iff (hroot : root ≠ "") : commonRoot seen [] = root ↔
    isRepositoryTopLevelDirectory root = false ∧ seen = some root := by
  cases seen with
  | none => simp [commonRoot, hroot.symm]
  | some found =>
    rw [commonRoot, Option.some.injEq]
    split
    · rename_i htop
      constructor
      · exact fun h => absurd h.symm hroot
      · rintro ⟨h, rfl⟩
        rw [h] at htop
        cases htop
    · rename_i htop
      constructor
      · rintro rfl
        exact ⟨by simpa using htop, rfl⟩
      · exact And.right

/-- Whether the loop looks at an entry. -/
theorem counted_iff (h : (cleanName item.name).rooted = false) :
    ((cleanName item.name).parts = [] ∧ (!(cleanName item.name).rooted) = true ∨
      isMacMetadata (cleanName item.name) = true) ↔ ¬ Counted item := by
  rw [isMacMetadata_eq h, h, Counted, not_and_or, not_not, Bool.not_eq_false]
  exact or_congr_left (and_iff_left rfl)

theorem commonRoot_of_not_counted (h : (cleanName item.name).rooted = false)
    (hcounted : ¬ Counted item) : commonRoot seen (item :: items) = commonRoot seen items := by
  rw [commonRoot, if_pos ((counted_iff h).mpr hcounted)]

theorem slashParts_eq (h : (cleanName item.name).rooted = false) :
    slashParts (cleanName item.name) = partsOf item := by
  rw [slashParts, h]
  rfl

theorem commonRoot_of_below (h : (cleanName item.name).rooted = false) (hcounted : Counted item)
    {first : String} (hbelow : Below first item) : commonRoot seen (item :: items) =
      if ∀ found ∈ seen, first = found then commonRoot (some first) items else "" := by
  obtain ⟨x, more, hparts⟩ := hbelow
  rw [commonRoot, if_neg (not_not.mpr hcounted ∘ (counted_iff h).mp), slashParts_eq h, hparts]
  cases seen with
  | none => exact (if_pos nofun).symm
  | some found =>
    have hall : (∀ other ∈ some found, first = other) ↔ first = found :=
      ⟨fun h => h found rfl, fun h _ hother => h.trans (Option.some.inj hother)⟩
    simp only [hall]
    by_cases hsame : first = found
    · rw [if_pos hsame, if_neg (not_not.mpr hsame), hsame]
    · rw [if_neg hsame, if_pos hsame]

theorem commonRoot_of_not_below (h : (cleanName item.name).rooted = false)
    (hcounted : Counted item) (hbelow : ∀ first, ¬ Below first item) :
    commonRoot seen (item :: items) = "" := by
  rw [commonRoot, if_neg (not_not.mpr hcounted ∘ (counted_iff h).mp), slashParts_eq h]
  split
  · rename_i first x more hparts
    exact absurd ⟨x, more, hparts⟩ (hbelow first)
  · rfl

/-- The loop finds a root if everything it looks at lies below it. -/
theorem commonRoot_eq_iff (hroot : root ≠ "")
    (hunrooted : ∀ item ∈ items, (cleanName item.name).rooted = false) :
    commonRoot seen items = root ↔ isRepositoryTopLevelDirectory root = false ∧
      (∀ item ∈ items, Counted item → Below root item) ∧
        (seen = some root ∨ seen = none ∧ ∃ item ∈ items, Counted item) := by
  induction items generalizing seen with
  | nil =>
    rw [commonRoot_nil_iff hroot]
    simp
  | cons item items ih =>
    obtain ⟨hitem, hunrooted⟩ := List.forall_mem_cons.mp hunrooted
    have hexists : (∃ other ∈ item :: items, Counted other) ↔
        Counted item ∨ ∃ other ∈ items, Counted other := by simp
    rw [List.forall_mem_cons, hexists]
    by_cases hcounted : Counted item
    · rw [forall_prop_of_true hcounted]
      by_cases hsome : ∃ first, Below first item
      · obtain ⟨first, hfirst⟩ := hsome
        have hbelow : Below root item ↔ first = root := ⟨hfirst.unique, fun h => h ▸ hfirst⟩
        rw [commonRoot_of_below hitem hcounted hfirst, hbelow]
        by_cases hsame : ∀ found ∈ seen, first = found
        · rw [if_pos hsame, ih hunrooted]
          constructor
          · rintro ⟨htop, hrest, hfound | ⟨hnone, -⟩⟩
            · obtain rfl := Option.some.inj hfound
              refine ⟨htop, ⟨rfl, hrest⟩, ?_⟩
              cases seen with
              | none => exact .inr ⟨rfl, .inl hcounted⟩
              | some found => exact .inl (by rw [hsame found rfl])
            · cases hnone
          · rintro ⟨htop, ⟨rfl, hrest⟩, -⟩
            exact ⟨htop, hrest, .inl rfl⟩
        · rw [if_neg hsame]
          constructor
          · exact fun h => absurd h.symm hroot
          · rintro ⟨-, ⟨rfl, -⟩, rfl | ⟨rfl, -⟩⟩
            · exact absurd (fun _ hfound => Option.some.inj hfound) hsame
            · exact absurd nofun hsame
      · rw [commonRoot_of_not_below hitem hcounted (not_exists.mp hsome)]
        constructor
        · exact fun h => absurd h.symm hroot
        · rintro ⟨-, ⟨hbelow, -⟩, -⟩
          exact absurd ⟨root, hbelow⟩ hsome
    · rw [commonRoot_of_not_counted hitem hcounted, ih hunrooted]
      simp only [hcounted, false_or, forall_false, true_and]

end

/-! ## What becomes of a name -/

/-- The root that is stripped; the empty one is none. -/
def rootOf (files : List ZipFile) : Option String :=
  if commonArchiveRoot files = "" then none else some (commonArchiveRoot files)

theorem classifyPath_ok {clean : CleanPath} {found : Option (List String)}
    (h : classifyPath clean = .ok found) : clean.rooted = false ∧
      found = if clean.parts = [] ∨ isSkipped clean.parts = true then none else some clean.parts := by
  unfold classifyPath at h
  split at h
  · rename_i hempty
    cases h
    exact ⟨by simpa using hempty.2, (if_pos (.inl hempty.1)).symm⟩
  · rename_i hempty
    split at h
    · cases h
    · rename_i hsafe
      have hroot : clean.rooted = false := by simpa using (not_or.mp hsafe).1
      have hne : clean.parts ≠ [] := fun hnil => hempty ⟨hnil, by rw [hroot]; rfl⟩
      have hmac := isMacMetadata_eq hroot
      have hskipped : (clean.parts.head? = some ".git" ∨ clean.parts = [".DS_Store"] ∨
          isMacMetadata clean = true) ↔ clean.parts = [] ∨ isSkipped clean.parts = true := by
        rw [hmac]
        simp [isSkipped, hne, or_assoc]
      refine ⟨hroot, ?_⟩
      by_cases hskip : clean.parts.head? = some ".git" ∨ clean.parts = [".DS_Store"] ∨
          isMacMetadata clean = true
      · rw [if_pos hskip] at h
        cases h
        exact (if_pos (hskipped.mp hskip)).symm
      · rw [if_neg hskip] at h
        cases h
        exact (if_neg fun hs => hskip (hskipped.mpr hs)).symm

/-- The name of an entry that is not refused: it does not start at the root, and the file has the
path without the root, unless that is skipped. -/
theorem importedPath_of_ok {files : List ZipFile} {item : ZipFile}
    (h : ∃ found, normalizeArchivePath item.name (commonArchiveRoot files) = .ok found) :
    (cleanName item.name).rooted = false ∧ ∀ path,
      importedPath (commonArchiveRoot files) item = some path ↔ item.isDir = false ∧ path ≠ [] ∧
        path = unwrap (rootOf files) (partsOf item) ∧ isSkipped path = false := by
  obtain ⟨found, hfound⟩ := h
  have hfound' := hfound
  rw [normalizeArchivePath] at hfound'
  obtain ⟨hstripped, hval⟩ := classifyPath_ok hfound'
  have hroot : (cleanName item.name).rooted = false := by
    unfold stripRoot at hstripped
    split at hstripped <;> exact hstripped
  have hparts : (stripRoot (commonArchiveRoot files) (cleanName item.name)).parts =
      unwrap (rootOf files) (partsOf item) := by
    unfold stripRoot unwrap rootOf partsOf
    by_cases hempty : commonArchiveRoot files = ""
    · simp [hempty]
    · by_cases hhead : (cleanName item.name).parts.head? = some (commonArchiveRoot files)
      · simp [hempty, hhead, hroot]
      · simp [hempty, hhead]
  refine ⟨hroot, fun path => ?_⟩
  rw [importedPath_eq_some, hfound, hval, hparts]
  by_cases hnone : unwrap (rootOf files) (partsOf item) = [] ∨
      isSkipped (unwrap (rootOf files) (partsOf item)) = true
  · rw [if_pos hnone]
    constructor
    · rintro ⟨heq, -⟩
      cases heq
    · rintro ⟨-, hne, rfl, hskip⟩
      rcases hnone with hnil | hskip'
      · exact absurd hnil hne
      · rw [hskip] at hskip'
        cases hskip'
  · obtain ⟨hne, hskip⟩ := not_or.mp hnone
    rw [if_neg hnone]
    constructor
    · rintro ⟨heq, hdir⟩
      cases heq
      exact ⟨hdir, hne, rfl, by simpa using hskip⟩
    · rintro ⟨hdir, -, rfl, -⟩
      exact ⟨rfl, hdir⟩

theorem part_ne_empty {item : ZipFile} {part : String} (h : part ∈ partsOf item) : part ≠ "" := by
  obtain ⟨names, n, hparts, hnames, -⟩ :=
    clean_parts (String.ofList (replaceBackslashes item.name.toList))
  change partsOf item = _ at hparts
  rw [hparts] at h
  rcases List.mem_append.mp h with hup | hname
  · rw [List.eq_of_mem_replicate hup]
    decide
  · exact (hnames part hname).1

/-! ## The paths of an accepted archive -/

section

variable {sha1 : List UInt8 → String} {written : Nat} {files : List ZipFile} {st : Extracted}

/-- The entries of an accepted archive do not start at the root. -/
theorem accepted_unrooted (hok : extractGitHubArchive sha1 written (some files) = .ok st) :
    ∀ item ∈ files, (cleanName item.name).rooted = false := by
  obtain ⟨-, _, hfiles, -, hfold, -⟩ := extract_eq_ok.mp hok
  cases hfiles
  intro item hitem
  exact (importedPath_of_ok ((extractItems_paths hfold).1 item hitem)).1

theorem mem_paths (hok : extractGitHubArchive sha1 written (some files) = .ok st)
    {path : List String} : path ∈ st.files.map (·.path) ↔ ∃ item ∈ files, item.isDir = false ∧
      path ≠ [] ∧ path = unwrap (rootOf files) (partsOf item) ∧ isSkipped path = false := by
  obtain ⟨-, _, hfiles, -, hfold, -⟩ := extract_eq_ok.mp hok
  cases hfiles
  obtain ⟨hnorm, hpaths⟩ := extractItems_paths hfold
  rw [hpaths, List.map_nil, List.append_nil, List.mem_reverse, List.mem_filterMap]
  constructor
  · rintro ⟨item, hitem, hpath⟩
    exact ⟨item, hitem, ((importedPath_of_ok (hnorm item hitem)).2 path).mp hpath⟩
  · rintro ⟨item, hitem, hpath⟩
    exact ⟨item, hitem, ((importedPath_of_ok (hnorm item hitem)).2 path).mpr hpath⟩

theorem mem_repositoryFiles {parts : List String} : parts ∈ repositoryFiles files ↔
    ∃ item ∈ files, item.isDir = false ∧ partsOf item = parts ∧ parts ≠ [] ∧
      isMetadata parts = false := by
  unfold repositoryFiles
  rw [List.mem_filter, List.mem_map]
  simp only [List.mem_filter, Bool.not_eq_true', decide_eq_true_eq]
  constructor
  · rintro ⟨⟨item, ⟨hitem, hdir⟩, hparts⟩, hne, hmeta⟩
    exact ⟨item, hitem, hdir, hparts, hne, hmeta⟩
  · rintro ⟨item, hitem, hdir, hparts, hne, hmeta⟩
    exact ⟨⟨item, ⟨hitem, hdir⟩, hparts⟩, hne, hmeta⟩

theorem not_underMacosx {parts : List String} (h : isMetadata parts = false) :
    underMacosx parts = false := by
  unfold isMetadata at h
  simp only [Bool.or_eq_false_iff] at h
  exact h.1.1

/-- The root that is stripped lies above everything that is counted. -/
theorem rootOf_eq_some (hunrooted : ∀ item ∈ files, (cleanName item.name).rooted = false)
    {root : String} : rootOf files = some root ↔ isRepositoryTopLevelDirectory root = false ∧
      (∀ item ∈ files, Counted item → Below root item) ∧ ∃ item ∈ files, Counted item := by
  have hiff : rootOf files = some root ↔ root ≠ "" ∧ commonRoot none files = root := by
    unfold rootOf commonArchiveRoot
    by_cases hempty : commonRoot none files = ""
    · rw [if_pos hempty, hempty]
      constructor
      · intro h
        cases h
      · rintro ⟨hne, heq⟩
        exact absurd heq.symm hne
    · rw [if_neg hempty, Option.some.injEq]
      exact ⟨fun heq => ⟨heq ▸ hempty, heq⟩, And.right⟩
  rw [hiff]
  constructor
  · rintro ⟨hne, hroot⟩
    obtain ⟨htop, hall, hseen⟩ := (commonRoot_eq_iff hne hunrooted).mp hroot
    refine ⟨htop, hall, ?_⟩
    rcases hseen with hsome | ⟨-, hexists⟩
    · cases hsome
    · exact hexists
  · rintro ⟨htop, hall, item, hitem, hcounted⟩
    obtain ⟨x, rest, hparts⟩ := hall item hitem hcounted
    have hne : root ≠ "" := part_ne_empty (hparts ▸ List.mem_cons_self)
    exact ⟨hne, (commonRoot_eq_iff hne hunrooted).mpr ⟨htop, hall, .inr ⟨rfl, item, hitem, hcounted⟩⟩⟩

/-- What lies under `__MACOSX` is skipped, whatever root is stripped. -/
theorem skipped_of_macosx (hunrooted : ∀ item ∈ files, (cleanName item.name).rooted = false)
    {parts : List String} (h : underMacosx parts = true) :
    unwrap (rootOf files) parts = parts ∧ isSkipped parts = true := by
  refine ⟨?_, by simp [isSkipped, h]⟩
  cases hroot : rootOf files with
  | none => exact unwrap_none parts
  | some root =>
    obtain ⟨-, hall, item, hitem, hcounted⟩ := (rootOf_eq_some hunrooted).mp hroot
    obtain ⟨x, rest, hparts⟩ := hall item hitem hcounted
    have hmac := hcounted.2
    simp only [hparts, underMacosx, isMacMetadata] at hmac
    simp only [underMacosx, isMacMetadata, Bool.not_false, Bool.true_and, Bool.and_eq_true,
      beq_iff_eq] at h
    unfold unwrap
    rw [if_neg]
    rintro ⟨-, hhead⟩
    rw [hhead, Option.some.injEq] at h
    simp [h.1] at hmac

theorem not_skipped {root x : String} {rest : List String}
    (h : isMetadata (root :: x :: rest) = false) : isSkipped (root :: x :: rest) = false := by
  have hmac := not_underMacosx h
  simp only [isMetadata, hmac, Bool.false_or, Bool.or_eq_false_iff] at h
  simp only [isSkipped, hmac, Bool.or_false, Bool.or_eq_false_iff]
  refine ⟨?_, by simp⟩
  by_contra hgit
  have hgit : root = ".git" := by simpa using hgit
  simp [hgit] at h

/-- The paths are those of the reference. -/
def Agrees (files : List ZipFile) (st : Extracted) : Prop :=
  ∀ path, path ∈ st.files.map (·.path) ↔ path ∈ reference files

theorem mem_reference {path : List String} : path ∈ reference files ↔
    ∃ item ∈ files, item.isDir = false ∧ partsOf item ≠ [] ∧ isMetadata (partsOf item) = false ∧
      unwrap (wrapper (repositoryFiles files)) (partsOf item) = path := by
  unfold reference
  rw [List.mem_map]
  constructor
  · rintro ⟨parts, hparts, hpath⟩
    obtain ⟨item, hitem, hdir, rfl, hne, hmeta⟩ := mem_repositoryFiles.mp hparts
    exact ⟨item, hitem, hdir, hne, hmeta, hpath⟩
  · rintro ⟨item, hitem, hdir, hne, hmeta, hpath⟩
    exact ⟨_, mem_repositoryFiles.mpr ⟨item, hitem, hdir, rfl, hne, hmeta⟩, hpath⟩

/-- Below the root that is stripped, different files keep different paths. -/
theorem unwrap_counted (hunrooted : ∀ item ∈ files, (cleanName item.name).rooted = false) :
    ∀ item ∈ files, Counted item → unwrap (rootOf files) (partsOf item) ≠ [] ∧
      ∀ other ∈ files, Counted other →
        unwrap (rootOf files) (partsOf other) = unwrap (rootOf files) (partsOf item) →
          partsOf other = partsOf item := by
  intro item hitem hcounted
  cases hroot : rootOf files with
  | none =>
    simp only [unwrap_none]
    exact ⟨hcounted.1, fun other _ _ heq => heq⟩
  | some root =>
    obtain ⟨-, hall, -⟩ := (rootOf_eq_some hunrooted).mp hroot
    obtain ⟨x, rest, hparts⟩ := hall item hitem hcounted
    rw [hparts, unwrap_cons]
    refine ⟨by simp, fun other hother hcounted' heq => ?_⟩
    obtain ⟨y, more, hparts'⟩ := hall other hother hcounted'
    rw [hparts', unwrap_cons] at heq
    rw [hparts', heq]

/-- Where both strip the same root, they agree if they skip the same. -/
theorem agrees_iff_of_root (hok : extractGitHubArchive sha1 written (some files) = .ok st)
    (hroot : rootOf files = wrapper (repositoryFiles files)) :
    Agrees files st ↔ ∀ item ∈ files, item.isDir = false →
      isSkipped (unwrap (rootOf files) (partsOf item)) = isMetadata (partsOf item) := by
  have hunrooted := accepted_unrooted hok
  have hinj := unwrap_counted hunrooted
  constructor
  · intro hagrees item hitem hdir
    cases hmeta : isMetadata (partsOf item) with
    | false =>
      by_cases hne : partsOf item = []
      · rw [hne]
        cases rootOf files <;> rfl
      · have hmem : unwrap (rootOf files) (partsOf item) ∈ reference files :=
          mem_reference.mpr ⟨item, hitem, hdir, hne, hmeta, by rw [hroot]⟩
        obtain ⟨-, -, -, -, -, hskip⟩ := (mem_paths hok).mp ((hagrees _).mpr hmem)
        exact hskip
    | true =>
      by_contra hskip
      have hskip : isSkipped (unwrap (rootOf files) (partsOf item)) = false := by simpa using hskip
      have hcounted : Counted item := by
        refine ⟨fun hnil => ?_, ?_⟩
        · rw [hnil] at hmeta
          cases hmeta
        · by_contra hmac
          have hmac : underMacosx (partsOf item) = true := by simpa using hmac
          obtain ⟨hsame, hskip'⟩ := skipped_of_macosx hunrooted hmac
          rw [hsame, hskip'] at hskip
          cases hskip
      obtain ⟨hne, hother⟩ := hinj item hitem hcounted
      have hmem := (hagrees _).mp ((mem_paths hok).mpr ⟨item, hitem, hdir, hne, rfl, hskip⟩)
      obtain ⟨other, hmem', -, hne', hmeta', heq⟩ := mem_reference.mp hmem
      rw [← hroot] at heq
      have hsame := hother other hmem' ⟨hne', not_underMacosx hmeta'⟩ heq
      rw [hsame, hmeta] at hmeta'
      cases hmeta'
  · intro hskips path
    rw [mem_paths hok, mem_reference]
    constructor
    · rintro ⟨item, hitem, hdir, hne, rfl, hskip⟩
      refine ⟨item, hitem, hdir, fun hnil => hne ?_, hskips item hitem hdir ▸ hskip, by rw [hroot]⟩
      rw [hnil]
      cases rootOf files <;> rfl
    · rintro ⟨item, hitem, hdir, hne, hmeta, rfl⟩
      have hskip := (hskips item hitem hdir).trans hmeta
      rw [← hroot]
      exact ⟨item, hitem, hdir, (hinj item hitem ⟨hne, not_underMacosx hmeta⟩).1, rfl, hskip⟩

/-- Some file is imported. -/
theorem exists_path (hok : extractGitHubArchive sha1 written (some files) = .ok st) :
    ∃ path, path ∈ st.files.map (·.path) := by
  obtain ⟨-, _, -, -, -, hne⟩ := extract_eq_ok.mp hok
  obtain ⟨file, hfile⟩ := List.exists_mem_of_ne_nil _ hne
  exact ⟨_, List.mem_map_of_mem hfile⟩

theorem counted_of_repository {parts : List String} (h : parts ∈ repositoryFiles files) :
    ∃ item ∈ files, partsOf item = parts ∧ Counted item := by
  obtain ⟨item, hitem, -, rfl, hne, hmeta⟩ := mem_repositoryFiles.mp h
  exact ⟨item, hitem, rfl, hne, not_underMacosx hmeta⟩

/-- A root that is stripped is the wrapper, if there are files in it. -/
theorem wrapper_of_root (hunrooted : ∀ item ∈ files, (cleanName item.name).rooted = false)
    {root : String} (hroot : rootOf files = some root) (hne : repositoryFiles files ≠ []) :
    wrapper (repositoryFiles files) = some root := by
  obtain ⟨htop, hall, -⟩ := (rootOf_eq_some hunrooted).mp hroot
  refine wrapper_eq_some.mpr ⟨hne, htop, fun parts hparts => ?_⟩
  obtain ⟨item, hitem, rfl, hcounted⟩ := counted_of_repository hparts
  exact hall item hitem hcounted

/-- A wrapper above everything that is counted is stripped. -/
theorem root_of_wrapper (hunrooted : ∀ item ∈ files, (cleanName item.name).rooted = false)
    {root : String} (hwrapper : wrapper (repositoryFiles files) = some root)
    (hall : ∀ item ∈ files, Counted item → Below root item) : rootOf files = some root := by
  obtain ⟨hne, htop, -⟩ := wrapper_eq_some.mp hwrapper
  obtain ⟨parts, hparts⟩ := List.exists_mem_of_ne_nil _ hne
  obtain ⟨item, hitem, -, hcounted⟩ := counted_of_repository hparts
  exact (rootOf_eq_some hunrooted).mpr ⟨htop, hall, item, hitem, hcounted⟩

/-- Where the paths agree, the wrapper is what is stripped. -/
theorem Agrees.root (hok : extractGitHubArchive sha1 written (some files) = .ok st)
    (h : Agrees files st) : rootOf files = wrapper (repositoryFiles files) := by
  have hunrooted := accepted_unrooted hok
  cases hroot : rootOf files with
  | some root =>
    obtain ⟨path, hpath⟩ := exists_path hok
    obtain ⟨item, hitem, hdir, hne, hmeta, -⟩ := mem_reference.mp ((h path).mp hpath)
    have hmem : partsOf item ∈ repositoryFiles files :=
      mem_repositoryFiles.mpr ⟨item, hitem, hdir, rfl, hne, hmeta⟩
    exact (wrapper_of_root hunrooted hroot (List.ne_nil_of_mem hmem)).symm
  | none =>
    cases hwrapper : wrapper (repositoryFiles files) with
    | none => rfl
    | some root =>
      -- every file has a path of its own, and so one that is longer by the wrapper
      obtain ⟨hne, -, hall⟩ := wrapper_eq_some.mp hwrapper
      have hlonger : ∀ n, ∃ parts ∈ repositoryFiles files, n ≤ parts.length := by
        intro n
        induction n with
        | zero =>
          obtain ⟨parts, hparts⟩ := List.exists_mem_of_ne_nil _ hne
          exact ⟨parts, hparts, Nat.zero_le _⟩
        | succ n ih =>
          obtain ⟨parts, hparts, hlen⟩ := ih
          obtain ⟨item, hitem, hdir, rfl, hne', hmeta⟩ := mem_repositoryFiles.mp hparts
          obtain ⟨x, rest, hshape⟩ := hall _ hparts
          have hskip : isSkipped (partsOf item) = false := by
            rw [hshape] at hmeta ⊢
            exact not_skipped hmeta
          have hmem := (h _).mp ((mem_paths hok).mpr ⟨item, hitem, hdir, hne', by
            rw [hroot, unwrap_none], hskip⟩)
          obtain ⟨other, hother, hdir', hne'', hmeta', heq⟩ := mem_reference.mp hmem
          have hmem' : partsOf other ∈ repositoryFiles files :=
            mem_repositoryFiles.mpr ⟨other, hother, hdir', rfl, hne'', hmeta'⟩
          obtain ⟨y, more, hshape'⟩ := hall _ hmem'
          rw [hwrapper, hshape', unwrap_cons] at heq
          refine ⟨_, hmem', ?_⟩
          rw [hshape', List.length_cons, heq]
          omega
      obtain ⟨parts, hparts, hlen⟩ :=
        hlonger (((repositoryFiles files).map List.length).max?.getD 0 + 1)
      have hmax : parts.length ≤ ((repositoryFiles files).map List.length).max?.getD 0 :=
        List.le_max?_getD_of_mem (List.mem_map_of_mem hparts)
      exact absurd hlen (by omega)

/-- Where an archive is tidy, the wrapper is what is stripped. -/
theorem Tidy.root (hok : extractGitHubArchive sha1 written (some files) = .ok st)
    (h : Tidy files) : rootOf files = wrapper (repositoryFiles files) := by
  have hunrooted := accepted_unrooted hok
  cases hwrapper : wrapper (repositoryFiles files) with
  | some root => exact root_of_wrapper hunrooted hwrapper (h.wrapped root hwrapper)
  | none =>
    cases hroot : rootOf files with
    | none => rfl
    | some root =>
      obtain ⟨htop, hall, -⟩ := (rootOf_eq_some hunrooted).mp hroot
      obtain ⟨path, hpath⟩ := exists_path hok
      obtain ⟨item, hitem, hdir, hne, hpath, hskip⟩ := (mem_paths hok).mp hpath
      have hnil : repositoryFiles files = [] := by
        by_contra hne'
        rw [wrapper_of_root hunrooted hroot hne'] at hwrapper
        cases hwrapper
      have hparts : partsOf item ≠ [] := by
        intro hparts
        rw [hparts, hroot] at hpath
        exact hne hpath
      -- the file is metadata, and then it is skipped without the root as well
      have hmeta : isMetadata (partsOf item) = true := by
        by_contra hmeta
        have hmem : partsOf item ∈ repositoryFiles files :=
          mem_repositoryFiles.mpr ⟨item, hitem, hdir, rfl, hparts, by simpa using hmeta⟩
        rw [hnil] at hmem
        cases hmem
      have hskip' := h.shallow item hitem hdir hmeta
      rw [hwrapper, unwrap_none] at hskip'
      cases hmac : underMacosx (partsOf item) with
      | true =>
        obtain ⟨hsame, hskipped⟩ := skipped_of_macosx hunrooted hmac
        rw [hpath, hsame, hskipped] at hskip
        cases hskip
      | false =>
        obtain ⟨x, rest, hshape⟩ := hall item hitem ⟨hparts, hmac⟩
        rw [hshape] at hskip' hmac
        simp only [isSkipped, hmac, Bool.or_false, Bool.or_eq_true, beq_iff_eq, List.head?_cons,
          Option.some.injEq, List.cons.injEq, reduceCtorEq, and_false, or_false] at hskip'
        rw [hskip'] at htop
        exact absurd htop (by decide)

/-- Both agree exactly where an archive is tidy. -/
theorem agrees_iff_tidy (hok : extractGitHubArchive sha1 written (some files) = .ok st) :
    Agrees files st ↔ Tidy files := by
  constructor
  · intro hagrees
    have hroot := hagrees.root hok
    have hskips := (agrees_iff_of_root hok hroot).mp hagrees
    rw [hroot] at hskips
    refine ⟨fun root hwrapper => ?_, fun item hitem hdir hmeta => ?_,
      fun item hitem hdir hskip => ?_⟩
    · exact ((rootOf_eq_some (accepted_unrooted hok)).mp (hroot.trans hwrapper)).2.1
    · exact (hskips item hitem hdir).trans hmeta
    · exact (hskips item hitem hdir).symm.trans hskip
  · intro htidy
    have hroot := htidy.root hok
    refine (agrees_iff_of_root hok hroot).mpr fun item hitem hdir => ?_
    rw [hroot, Bool.eq_iff_iff]
    exact ⟨htidy.only item hitem hdir, htidy.shallow item hitem hdir⟩

theorem wrapper_congr {entries entries' : List (List String)}
    (h : ∀ parts, parts ∈ entries ↔ parts ∈ entries') : wrapper entries = wrapper entries' := by
  ext root
  have hnil : entries ≠ [] ↔ entries' ≠ [] := by
    simp only [ne_eq, List.eq_nil_iff_forall_not_mem, h]
  change wrapper entries = some root ↔ wrapper entries' = some root
  rw [wrapper_eq_some, wrapper_eq_some, hnil]
  simp only [h]

/-- The reference looks at the files only, in any order. -/
theorem mem_reference_perm {files' : List ZipFile}
    (h : (files'.filter (!·.isDir)).Perm (files.filter (!·.isDir))) {path : List String} :
    path ∈ reference files' ↔ path ∈ reference files := by
  have hsame : ∀ parts, parts ∈ repositoryFiles files' ↔ parts ∈ repositoryFiles files := by
    intro parts
    unfold repositoryFiles
    rw [List.mem_filter, List.mem_filter, (h.map partsOf).mem_iff]
  unfold reference
  rw [List.mem_map, List.mem_map, wrapper_congr hsame]
  simp only [hsame]

/-- The importer produces the paths of the reference if, and only if, the archive is tidy; and then
they depend neither on the directory entries nor on the order. -/
theorem importedPaths_iff (sha1 : List UInt8 → String) (written : Nat) (files : List ZipFile)
    (st : Extracted) (hok : extractGitHubArchive sha1 written (some files) = .ok st) :
    (Agrees files st ↔ Tidy files) ∧
      ∀ written' files' st', extractGitHubArchive sha1 written' (some files') = .ok st' →
        (files'.filter (!·.isDir)).Perm (files.filter (!·.isDir)) → Tidy files → Tidy files' →
          ∀ path, path ∈ st'.files.map (·.path) ↔ path ∈ st.files.map (·.path) := by
  refine ⟨agrees_iff_tidy hok, fun written' files' st' hok' hperm htidy htidy' path => ?_⟩
  calc path ∈ st'.files.map (·.path) ↔ path ∈ reference files' :=
        (agrees_iff_tidy hok').mpr htidy' path
    _ ↔ path ∈ reference files := mem_reference_perm hperm
    _ ↔ path ∈ st.files.map (·.path) := ((agrees_iff_tidy hok).mpr htidy path).symm

end

def entryOf (name : String) (isDir : Bool) : ZipFile where
  name := name
  isDir := isDir
  isSymlink := false
  perm := 420
  uncompressedSize64 := 2
  content := some [104, 105]

theorem importedPaths_readme :
    ∃ st, extractGitHubArchive (fun _ => "sha") 2 (some [entryOf "repo-main/README.md" false]) =
        .ok st ∧ Agrees [entryOf "repo-main/README.md" false] st := by
  obtain ⟨st, hst⟩ : ∃ st, extractGitHubArchive (fun _ => "sha") 2
      (some [entryOf "repo-main/README.md" false]) = .ok st := ⟨_, rfl⟩
  have hparts : partsOf (entryOf "repo-main/README.md" false) = ["repo-main", "README.md"] := by
    decide +kernel
  have hwrapper : wrapper (repositoryFiles [entryOf "repo-main/README.md" false]) =
      some "repo-main" := by decide +kernel
  refine ⟨st, hst, (importedPaths_iff (fun _ => "sha") 2 _ st hst).1.mpr
    ⟨fun root hroot item hitem _ => ?_, fun item hitem _ hmeta => ?_, fun item hitem _ hskip => ?_⟩⟩
  · obtain rfl := Option.some.inj (hwrapper.symm.trans hroot)
    exact ⟨"README.md", [], List.mem_singleton.mp hitem ▸ hparts⟩
  · rw [List.mem_singleton.mp hitem, hparts] at hmeta
    exact absurd hmeta (by decide +kernel)
  · rw [List.mem_singleton.mp hitem, hparts, hwrapper] at hskip
    exact absurd hskip (by decide +kernel)

/-- The entry of the wrapper itself keeps it from being stripped. -/
theorem importedPaths_wrapper_entry :
    ∃ st st', extractGitHubArchive (fun _ => "sha") 2 (some [entryOf "repo-main/README.md" false]) =
        .ok st ∧
      extractGitHubArchive (fun _ => "sha") 2
        (some [entryOf "repo-main/" true, entryOf "repo-main/README.md" false]) = .ok st' ∧
      st.files.map (·.path) = [["README.md"]] ∧
      st'.files.map (·.path) = [["repo-main", "README.md"]] ∧
      ¬ Agrees [entryOf "repo-main/" true, entryOf "repo-main/README.md" false] st' := by
  refine ⟨_, _, rfl, rfl, by decide +kernel, by decide +kernel, fun h => ?_⟩
  have hmem := (h ["README.md"]).mpr (by decide +kernel)
  revert hmem
  decide +kernel

end LukePanel.GithubHelper.ImportedPaths
