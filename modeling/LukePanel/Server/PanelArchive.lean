import LukePanel.Library.FileTree
import LukePanel.Server.PanelBackup

/-! # Writing a panel backup

`backupExport`, `CreateScheduledPanelBackup` and `writeBackupPath` of
`internal/server/backup.go`, as the entries of the archive they write. Nothing changes what they
read while they read it. -/
namespace LukePanel.Server.PanelArchive
open LukePanel.Library.GoStrings LukePanel.Library.SlashPath LukePanel.Library.FileTree
open LukePanel.Library.PathTree LukePanel.Server.PanelBackup

/-! ## What is backed up -/

/-- The content of a regular file, whose size is an `int64`. -/
structure Content where
  bytes : List UInt8
  bounded : bytes.length < 9223372036854775808

def Content.size (c : Content) : Int64 := Int64.ofNat c.bytes.length

/-- What is not a directory. -/
inductive Leaf where
  | file (content : Content)
  | link (target : String)
  | special

/-- The entries of a directory stand in the order `filepath.Walk` visits them in. -/
abbrev Tree := Node String Leaf

/-- The files of a panel: its configuration, and what stands under each name in the data
directory. -/
structure PanelData where
  configPath : String
  dataDir : String
  config : Option Content
  root : String → Option Tree
  distinct : ∀ item tree, root item = some tree → tree.Distinct
  named : ∀ item tree, root item = some tree → ∀ e ∈ tree.list, ∀ part ∈ e.1, FileName part

/-- The backup roots consist of regular files and directories. -/
def PanelData.Regular (s : PanelData) : Prop :=
  ∀ item ∈ panelBackupDataRoots, ∀ tree, s.root item = some tree →
    ∀ path leaf, (path, some leaf) ∈ tree.list → ∃ content, leaf = .file content

/-! ## The archive -/

/-- An entry: the elements of its name, and the content of a regular file or `none` for a
directory. -/
structure ArchiveEntry where
  parts : List String
  content : Option Content

def ArchiveEntry.header (e : ArchiveEntry) : Header :=
  match e.content with
  | none => ⟨join '/' e.parts, .dir, 0⟩
  | some content => ⟨join '/' e.parts, .reg, content.size⟩

def ArchiveEntry.body (e : ArchiveEntry) : List UInt8 :=
  match e.content with
  | none => []
  | some content => content.bytes

theorem Content.size_toInt (c : Content) : c.size.toInt = c.bytes.length :=
  Int64.toInt_ofNat_of_lt c.bounded

theorem ArchiveEntry.full (e : ArchiveEntry) : e.body.length = e.header.contentSize := by
  unfold ArchiveEntry.body ArchiveEntry.header Header.contentSize
  cases e.content with
  | none => rfl
  | some content =>
    simp only [Content.size_toInt]
    rfl

/-- What the tar reader yields for an archive. -/
def stream : List ArchiveEntry → Stream
  | [] => .eof
  | e :: rest => .entry e.header e.body e.full (stream rest)

/-! ## Writing -/

inductive WriteError where
  /-- `os.ErrNotExist`. -/
  | notExist
  /-- `backup file exceeds 2GB: %s`. -/
  | exceeds (path : String)
  deriving DecidableEq

def WriteError.message : WriteError → String
  | .notExist => "file does not exist"
  | .exceeds path => "backup file exceeds 2GB: " ++ path

mutual

/-- `filepath.Walk` with the function of `writeBackupPath`: the entries written, and the error
that ends the walk. -/
def walk (source : String) (archive rel : List String) :
    Tree → List ArchiveEntry × Option WriteError
  | .leaf (.link _) => ([], none)
  | .leaf .special => ([], none)
  | .leaf (.file content) =>
    if maxPanelBackupBytes < content.size then ([], some (.exceeds (join '/' (source :: rel))))
    else ([⟨archive ++ rel, some content⟩], none)
  | .dir entries =>
    let (written, err) := walkEntries source archive rel entries
    (⟨archive ++ rel, none⟩ :: written, err)

def walkEntries (source : String) (archive rel : List String) :
    List (String × Tree) → List ArchiveEntry × Option WriteError
  | [] => ([], none)
  | (name, tree) :: rest =>
    match walk source archive (rel ++ [name]) tree with
    | (written, some err) => (written, some err)
    | (written, none) =>
      let (more, err) := walkEntries source archive rel rest
      (written ++ more, err)

end

def writeBackupPath (source : String) (archive : List String) (tree : Option Tree) :
    List ArchiveEntry × Option WriteError :=
  match tree with
  | none => ([], some .notExist)
  | some tree => walk source archive [] tree

def writeConfig (s : PanelData) : List ArchiveEntry × Option WriteError :=
  writeBackupPath s.configPath ["panel", "config.json"]
    (s.config.map fun content => .leaf (.file content))

def writeRoot (s : PanelData) (item : String) : List ArchiveEntry × Option WriteError :=
  writeBackupPath (join '/' [s.dataDir, item]) ["data", item] (s.root item)

/-- The last entry; its content is made by `json.MarshalIndent`. -/
def manifestEntry (manifest : Content) : ArchiveEntry := ⟨["manifest.json"], some manifest⟩

/-- The loop of `CreateScheduledPanelBackup`: an error other than a missing root ends it. -/
def writeRoots (s : PanelData) : List String → Except WriteError (List ArchiveEntry)
  | [] => .ok []
  | item :: rest =>
    match writeRoot s item with
    | (written, none) | (written, some .notExist) => do
      let more ← writeRoots s rest
      return written ++ more
    | (_, some err) => .error err

/-- The archive of `CreateScheduledPanelBackup`. -/
def createScheduled (s : PanelData) (manifest : Content) :
    Except WriteError (List ArchiveEntry) :=
  match writeConfig s with
  | (_, some err) => .error err
  | (config, none) => do
    let roots ← writeRoots s panelBackupDataRoots
    return config ++ roots ++ [manifestEntry manifest]

def isAudit (item : String) : Bool := "audit.jsonl".toList.isPrefixOf item.toList

/-- The archive of `backupExport`: the audit files are written first, and a root whose walk
fails is given up with a warning, after what was written of it. -/
def backupExport (s : PanelData) (manifest : Content) : Except WriteError (List ArchiveEntry) :=
  match writeConfig s with
  | (_, some err) => .error err
  | (config, none) =>
    let audit := (panelBackupDataRoots.filter isAudit).flatMap fun item => (writeRoot s item).1
    let others := (panelBackupDataRoots.filter fun item => !isAudit item).flatMap
      fun item => (writeRoot s item).1
    .ok (config ++ audit ++ others ++ [manifestEntry manifest])

/-! ## What a walk writes -/

def Content.fits (c : Content) : Bool := !decide (maxPanelBackupBytes < c.size)

/-- The entry that a node of the tree is written as, if it is a directory or a file. -/
def entryOf (above : List String) (e : List String × Option Leaf) : Option ArchiveEntry :=
  match e.2 with
  | none => some ⟨above ++ e.1, none⟩
  | some (.file content) => some ⟨above ++ e.1, some content⟩
  | some _ => none

/-- A walk writes the nodes of a listing in order: all of them, or up to a file that exceeds the
limit. -/
structure Walked (above : List String) (list : List (List String × Option Leaf))
    (result : List ArchiveEntry × Option WriteError) : Prop where
  inOrder : result.1 <+: list.filterMap (entryOf above)
  complete : result.2 = none → result.1 = list.filterMap (entryOf above)
  fits : (∀ path content, (path, some (.file content)) ∈ list → content.fits = true) →
    result.2 = none
  written : ∀ e ∈ result.1, ∀ content, e.content = some content → content.fits = true
  found : result.2 ≠ some .notExist

theorem Walked.nil (above : List String) : Walked above [] ([], none) :=
  ⟨List.prefix_refl _, fun _ => rfl, fun _ => rfl, fun _ he => absurd he List.not_mem_nil,
    fun h => by cases h⟩

/-- What is neither a directory nor a file is passed over. -/
theorem Walked.passOver {above path : List String} {leaf : Leaf}
    {list : List (List String × Option Leaf)} {result : List ArchiveEntry × Option WriteError}
    (h : Walked above list result) (hleaf : entryOf above (path, some leaf) = none) :
    Walked above ((path, some leaf) :: list) result := by
  have hlist : ((path, some leaf) :: list).filterMap (entryOf above) =
      list.filterMap (entryOf above) := List.filterMap_cons_none hleaf
  refine ⟨?_, fun herr => ?_, fun hfits => ?_, h.written, h.found⟩
  · rw [hlist]; exact h.inOrder
  · rw [hlist]; exact h.complete herr
  · exact h.fits fun path content hmem => hfits path content (List.mem_cons_of_mem _ hmem)

theorem Walked.cons {above : List String} {list : List (List String × Option Leaf)}
    {result : List ArchiveEntry × Option WriteError} (h : Walked above list result)
    (path : List String) :
    Walked above ((path, none) :: list) (⟨above ++ path, none⟩ :: result.1, result.2) := by
  refine ⟨?_, fun herr => ?_, fun hfits => ?_, fun e he content hcontent => ?_, h.found⟩
  · exact List.cons_prefix_cons.mpr ⟨rfl, h.inOrder⟩
  · exact congrArg (_ :: ·) (h.complete herr)
  · exact h.fits fun path content hmem => hfits path content (List.mem_cons_of_mem _ hmem)
  · rcases List.mem_cons.mp he with rfl | he
    · cases hcontent
    · exact h.written e he content hcontent

/-- The second walk starts if the first one ends without an error. -/
theorem Walked.append {above : List String} {list list' : List (List String × Option Leaf)}
    {result result' : List ArchiveEntry × Option WriteError} (h : Walked above list result)
    (h' : Walked above list' result') (herr : result.2 = none) :
    Walked above (list ++ list') (result.1 ++ result'.1, result'.2) := by
  have hall := h.complete herr
  refine ⟨?_, fun herr' => ?_, fun hfits => ?_, fun e he => ?_, h'.found⟩
  · rw [List.filterMap_append, ← hall]
    exact (List.prefix_append_right_inj _).mpr h'.inOrder
  · rw [List.filterMap_append, ← hall, ← h'.complete herr']
  · exact h'.fits fun path content hmem => hfits path content (List.mem_append_right _ hmem)
  · rcases List.mem_append.mp he with he | he
    · exact h.written e he
    · exact h'.written e he

/-- The first walk's error ends the whole. -/
theorem Walked.stop {above : List String} {list : List (List String × Option Leaf)}
    {result : List ArchiveEntry × Option WriteError} (h : Walked above list result)
    (herr : result.2 ≠ none) (more : List (List String × Option Leaf)) :
    Walked above (list ++ more) result := by
  refine ⟨?_, fun hnone => absurd hnone herr, fun hfits => ?_, h.written, h.found⟩
  · rw [List.filterMap_append]
    exact h.inOrder.trans (List.prefix_append _ _)
  · exact absurd (h.fits fun path content hmem =>
      hfits path content (List.mem_append_left _ hmem)) herr

/-- The listing below a name is written below that name. -/
theorem Walked.below {above : List String} {name : String}
    {list : List (List String × Option Leaf)}
    {result : List ArchiveEntry × Option WriteError} (h : Walked (above ++ [name]) list result) :
    Walked above (list.map fun e => (name :: e.1, e.2)) result := by
  have hentry : ∀ e : List String × Option Leaf,
      entryOf above (name :: e.1, e.2) = entryOf (above ++ [name]) e := by
    intro e
    unfold entryOf
    simp only [List.append_assoc, List.singleton_append]
  have hlist : (list.map fun e => (name :: e.1, e.2)).filterMap (entryOf above) =
      list.filterMap (entryOf (above ++ [name])) := by
    rw [List.filterMap_map]
    exact List.filterMap_congr fun e _ => hentry e
  refine ⟨?_, fun herr => ?_, fun hfits => ?_, h.written, h.found⟩
  · rw [hlist]; exact h.inOrder
  · rw [hlist]; exact h.complete herr
  · exact h.fits fun path content hmem =>
      hfits (name :: path) content (List.mem_map.mpr ⟨_, hmem, rfl⟩)

/-- A walk that starts at a file, or at what it passes over. -/
theorem walk_leaf (source : String) (archive rel : List String) (leaf : Leaf) :
    Walked (archive ++ rel) [([], some leaf)] (walk source archive rel (.leaf leaf)) := by
  cases leaf with
  | link target =>
    rw [walk]
    exact (Walked.nil (archive ++ rel)).passOver rfl
  | special =>
    rw [walk]
    exact (Walked.nil (archive ++ rel)).passOver rfl
  | file content =>
    rw [walk]
    by_cases hover : maxPanelBackupBytes < content.size
    · rw [if_pos hover]
      have hnot : content.fits = false := by simp [Content.fits, hover]
      refine ⟨List.nil_prefix, fun h => (by cases h), fun hfits => ?_,
        fun _ he => absurd he List.not_mem_nil, fun h => (by cases h)⟩
      rw [hfits [] content List.mem_cons_self] at hnot
      cases hnot
    · rw [if_neg hover]
      have hfits : content.fits = true := by simp [Content.fits, hover]
      have hentry : [([], some (Leaf.file content))].filterMap (entryOf (archive ++ rel)) =
          [⟨archive ++ rel, some content⟩] := by
        simp [entryOf]
      refine ⟨?_, fun _ => hentry.symm, fun _ => rfl, fun e he content' hcontent => ?_,
        fun h => (by cases h)⟩
      · exact ⟨[], (List.append_nil _).trans hentry.symm⟩
      · rw [List.mem_singleton] at he
        subst he
        cases hcontent
        exact hfits

mutual

theorem walk_walked (source : String) (archive rel : List String) (tree : Tree) :
    Walked (archive ++ rel) tree.list (walk source archive rel tree) := by
  cases tree with
  | leaf leaf =>
    rw [Node.list]
    exact walk_leaf source archive rel leaf
  | dir entries =>
    rw [walk, Node.list]
    have h := walkEntries_walked source archive rel entries
    have hcons := h.cons []
    rw [List.append_nil] at hcons
    exact hcons

theorem walkEntries_walked (source : String) (archive rel : List String)
    (entries : List (String × Tree)) :
    Walked (archive ++ rel) (listEntries entries) (walkEntries source archive rel entries) := by
  cases entries with
  | nil =>
    rw [walkEntries, listEntries]
    exact Walked.nil _
  | cons entry rest =>
    obtain ⟨name, tree⟩ := entry
    have htree := walk_walked source archive (rel ++ [name]) tree
    have hrest := walkEntries_walked source archive rel rest
    rw [← List.append_assoc] at htree
    rw [walkEntries, listEntries]
    revert htree
    generalize walk source archive (rel ++ [name]) tree = result
    intro htree
    obtain ⟨written, err⟩ := result
    cases err with
    | some err => exact htree.below.stop (by simp) _
    | none => exact htree.below.append hrest rfl

end

/-! ## The entries of a root -/

theorem mem_entries {above : List String} {list : List (List String × Option Leaf)}
    {e : ArchiveEntry} :
    e ∈ list.filterMap (entryOf above) ↔ ∃ path, e.parts = above ++ path ∧
      (e.content = none ∧ (path, none) ∈ list ∨
        ∃ content, e.content = some content ∧ (path, some (.file content)) ∈ list) := by
  rw [List.mem_filterMap]
  constructor
  · rintro ⟨⟨path, leaf⟩, hmem, hentry⟩
    cases leaf with
    | none =>
      cases hentry
      exact ⟨path, rfl, Or.inl ⟨rfl, hmem⟩⟩
    | some leaf =>
      cases leaf with
      | file content =>
        cases hentry
        exact ⟨path, rfl, Or.inr ⟨content, rfl, hmem⟩⟩
      | link target => cases hentry
      | special => cases hentry
  · obtain ⟨parts, content⟩ := e
    rintro ⟨path, rfl, ⟨rfl, hmem⟩ | ⟨content, rfl, hmem⟩⟩
    · exact ⟨_, hmem, rfl⟩
    · exact ⟨_, hmem, rfl⟩

/-- The name and the content of an entry. -/
def ArchiveEntry.key (e : ArchiveEntry) : List String × Option Content := (e.parts, e.content)

theorem compatible_entries {list : List (List String × Option Leaf)} (h : Compatible list)
    (above : List String) :
    Compatible ((list.filterMap (entryOf above)).map ArchiveEntry.key) := by
  refine List.pairwise_map.mpr (List.Pairwise.filterMap (entryOf above) ?_ h)
  have habove : ∀ a b : List String × Option Leaf,
      (a.2.isSome = true → ¬ a.1 <+: b.1) → ∀ e, entryOf above a = some e → ∀ f,
      entryOf above b = some f → e.content.isSome = true → ¬ e.parts <+: f.parts := by
    intro a b hab e he f hf hsome hpre
    obtain ⟨path, hparts, hkind⟩ := mem_entries.mp (List.mem_filterMap.mpr
      ⟨a, List.mem_singleton_self a, he⟩)
    obtain ⟨path', hparts', hkind'⟩ := mem_entries.mp (List.mem_filterMap.mpr
      ⟨b, List.mem_singleton_self b, hf⟩)
    have hb : b.1 = path' := by
      rcases hkind' with ⟨_, hmem⟩ | ⟨_, _, hmem⟩ <;> rw [← List.mem_singleton.mp hmem]
    rw [hparts, hparts', List.prefix_append_right_inj] at hpre
    rcases hkind with ⟨hnone, _⟩ | ⟨content, _, hmem⟩
    · rw [hnone] at hsome
      cases hsome
    · rw [← List.mem_singleton.mp hmem, hb] at hab
      exact hab rfl hpre
  intro a b hab e he f hf
  exact ⟨habove a b hab.1 e he f hf, habove b a hab.2 f hf e he⟩

theorem writeRoot_some {s : PanelData} {item : String} {tree : Tree} (h : s.root item = some tree) :
    writeRoot s item = walk (join '/' [s.dataDir, item]) ["data", item] [] tree := by
  unfold writeRoot writeBackupPath
  rw [h]

/-- What is written of a root. -/
theorem writeRoot_walked {s : PanelData} {item : String} {tree : Tree}
    (h : s.root item = some tree) : Walked ["data", item] tree.list (writeRoot s item) := by
  rw [writeRoot_some h]
  exact walk_walked _ ["data", item] [] tree

theorem writeRoot_none {s : PanelData} {item : String} (h : s.root item = none) :
    writeRoot s item = ([], some .notExist) := by
  unfold writeRoot writeBackupPath
  rw [h]

/-- The entries of a root are nodes of its tree. -/
theorem mem_writeRoot {s : PanelData} {item : String} {e : ArchiveEntry}
    (he : e ∈ (writeRoot s item).1) : ∃ tree path, s.root item = some tree ∧
      e.parts = ["data", item] ++ path ∧
      (e.content = none ∧ (path, none) ∈ tree.list ∨
        ∃ content, e.content = some content ∧ (path, some (.file content)) ∈ tree.list) := by
  cases htree : s.root item with
  | none =>
    rw [writeRoot_none htree] at he
    cases he
  | some tree =>
    obtain ⟨path, hpath⟩ := mem_entries.mp ((writeRoot_walked htree).inOrder.subset he)
    exact ⟨tree, path, rfl, hpath⟩

theorem compatible_writeRoot (s : PanelData) (item : String) :
    Compatible ((writeRoot s item).1.map ArchiveEntry.key) := by
  cases htree : s.root item with
  | none =>
    rw [writeRoot_none htree]
    exact List.Pairwise.nil
  | some tree =>
    have hlist := Node.compatible_list (s.distinct item tree htree)
    exact (compatible_entries hlist ["data", item]).sublist
      ((writeRoot_walked htree).inOrder.sublist.map _)

/-- The entries of the roots, one root after the other. -/
def rootEntries (s : PanelData) (items : List String) : List ArchiveEntry :=
  items.flatMap fun item => (writeRoot s item).1

theorem mem_rootEntries {s : PanelData} {items : List String} {e : ArchiveEntry}
    (he : e ∈ rootEntries s items) : ∃ item ∈ items, e ∈ (writeRoot s item).1 :=
  List.mem_flatMap.mp he

theorem compatible_rootEntries (s : PanelData) {items : List String} (hitems : items.Nodup) :
    Compatible ((rootEntries s items).map ArchiveEntry.key) := by
  induction items with
  | nil => exact List.Pairwise.nil
  | cons item rest ih =>
    obtain ⟨hitem, hrest⟩ := List.nodup_cons.mp hitems
    unfold rootEntries
    rw [List.flatMap_cons, List.map_append]
    refine (compatible_writeRoot s item).append (ih hrest) fun a ha b hb hmeets => ?_
    obtain ⟨e, he, rfl⟩ := List.mem_map.mp ha
    obtain ⟨f, hf, rfl⟩ := List.mem_map.mp hb
    obtain ⟨other, hother, hf⟩ := mem_rootEntries hf
    obtain ⟨_, path, _, hparts, _⟩ := mem_writeRoot he
    obtain ⟨_, path', _, hparts', _⟩ := mem_writeRoot hf
    have hroots : Meets ["data", item] ["data", other] :=
      hmeets.above ⟨path, hparts.symm⟩ ⟨path', hparts'.symm⟩
    have hsame : item = other := by
      rcases hroots with h | h
      · simpa using h.eq_of_length rfl
      · simpa [eq_comm] using h.eq_of_length rfl
    exact hitem (hsame ▸ hother)

/-! ## The archives of the two writers -/

inductive Writer where
  | exported | scheduled
  deriving DecidableEq

def Writer.write (writer : Writer) (s : PanelData) (manifest : Content) :
    Except WriteError (List ArchiveEntry) :=
  match writer with
  | .exported => backupExport s manifest
  | .scheduled => createScheduled s manifest

def configEntry (config : Content) : ArchiveEntry := ⟨["panel", "config.json"], some config⟩

/-- What is written of a root is all of it. -/
def Whole (s : PanelData) (item : String) : Prop :=
  ∀ tree, s.root item = some tree → (writeRoot s item).2 = none

theorem writeConfig_eq {s : PanelData} {written : List ArchiveEntry}
    (h : writeConfig s = (written, none)) :
    ∃ config, s.config = some config ∧ written = [configEntry config] := by
  unfold writeConfig writeBackupPath at h
  cases hconfig : s.config with
  | none =>
    rw [hconfig] at h
    cases h
  | some config =>
    rw [hconfig, Option.map_some] at h
    simp only [walk] at h
    split at h
    · cases h
    · cases h
      exact ⟨config, rfl, rfl⟩

theorem writeRoots_eq {s : PanelData} {items : List String} {written : List ArchiveEntry}
    (h : writeRoots s items = .ok written) :
    written = rootEntries s items ∧ ∀ item ∈ items, Whole s item := by
  induction items generalizing written with
  | nil =>
    cases h
    exact ⟨rfl, fun _ hmem => absurd hmem List.not_mem_nil⟩
  | cons item rest ih =>
    have hitem : (writeRoot s item).2 = some .notExist → s.root item = none := by
      intro herr
      cases htree : s.root item with
      | none => rfl
      | some tree => exact absurd herr (writeRoot_walked htree).found
    rw [writeRoots] at h
    unfold rootEntries
    rw [List.flatMap_cons]
    revert h hitem
    cases hresult : writeRoot s item with
    | mk first err =>
      intro h hitem
      have hcontinue : (err = none ∨ err = some .notExist) →
          (writeRoots s rest >>= fun more => pure (first ++ more)) = .ok written →
          written = first ++ rest.flatMap (fun item => (writeRoot s item).1) ∧
            ∀ other ∈ item :: rest, Whole s other := by
        intro herr hrest
        cases hmore : writeRoots s rest with
        | error e =>
          rw [hmore] at hrest
          cases hrest
        | ok more =>
          rw [hmore] at hrest
          cases hrest
          obtain ⟨heq, hwhole⟩ := ih hmore
          refine ⟨congrArg (first ++ ·) heq, fun other hother tree htree => ?_⟩
          rcases List.mem_cons.mp hother with rfl | hother
          · rcases herr with rfl | rfl
            · rw [hresult]
            · rw [hitem rfl] at htree
              cases htree
          · exact hwhole other hother tree htree
      cases err with
      | none => exact hcontinue (Or.inl rfl) h
      | some err =>
        cases err with
        | notExist => exact hcontinue (Or.inr rfl) h
        | exceeds path => cases h

/-- The order of the export is the order of `panelBackupDataRoots`. -/
theorem roots_audit_first : panelBackupDataRoots.filter isAudit ++
    panelBackupDataRoots.filter (fun item => !isAudit item) = panelBackupDataRoots := by
  decide

/-- An archive holds the configuration, then the roots, then the manifest. A scheduled one
holds every root whole. -/
theorem write_eq {writer : Writer} {s : PanelData} {manifest : Content}
    {archive : List ArchiveEntry} (h : writer.write s manifest = .ok archive) :
    ∃ config, archive = configEntry config ::
        (rootEntries s panelBackupDataRoots ++ [manifestEntry manifest]) ∧
      (writer = .scheduled → ∀ item ∈ panelBackupDataRoots, Whole s item) := by
  cases hconfig : writeConfig s with
  | mk written err =>
    cases err with
    | some err =>
      cases writer with
      | exported =>
        simp only [Writer.write, backupExport, hconfig] at h
        cases h
      | scheduled =>
        simp only [Writer.write, createScheduled, hconfig] at h
        cases h
    | none =>
      obtain ⟨config, _, rfl⟩ := writeConfig_eq hconfig
      refine ⟨config, ?_⟩
      cases writer with
      | exported =>
        simp only [Writer.write, backupExport, hconfig] at h
        refine ⟨(Except.ok.inj h).symm.trans ?_, fun hw => by cases hw⟩
        rw [List.append_assoc [configEntry config], ← List.flatMap_append, roots_audit_first]
        rfl
      | scheduled =>
        simp only [Writer.write, createScheduled, hconfig] at h
        cases hroots : writeRoots s panelBackupDataRoots with
        | error e =>
          rw [hroots] at h
          cases h
        | ok roots =>
          rw [hroots] at h
          obtain ⟨rfl, hwhole⟩ := writeRoots_eq hroots
          cases h
          exact ⟨rfl, fun _ => hwhole⟩

end LukePanel.Server.PanelArchive
