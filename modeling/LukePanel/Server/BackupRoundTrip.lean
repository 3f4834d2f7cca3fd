import LukePanel.Server.BackupRestore
import LukePanel.Server.KeptPart

/-! # Restoring what was backed up

An archive the panel has written, extracted and installed into a target panel: the backup roots
of the target become those that were backed up, as far as the archive holds them. -/
namespace LukePanel.Server.BackupRoundTrip
open LukePanel.Library.SlashPath LukePanel.Library.FileTree LukePanel.Library.PathTree
open LukePanel.Server.PanelBackup LukePanel.Server.PanelArchive LukePanel.Server.BackupRestore
open LukePanel.Server.RestoreInstall LukePanel.Server.KeptPart

/-! ## What is installed -/

inductive Entry where
  | dir
  | file (bytes : List UInt8)
  | link (target : String)
  | special
  deriving DecidableEq

/-- What is found below an entry of the data directory, the entry itself at the empty path. -/
abbrev Subtree := List String → Option Entry

def entryKind : Option Leaf → Entry
  | none => .dir
  | some (.file content) => .file content.bytes
  | some (.link target) => .link target
  | some .special => .special

def subtree (tree : Tree) : Subtree := fun path => (tree.get path).map entryKind

/-- What the extraction has left at a path. -/
def entryAt (d : Destination) (path : List String) : Option Entry :=
  match d.files.lookup path with
  | some bytes => some (.file bytes)
  | none => if d.dirs.contains path then some .dir else none

/-- The staged tree, `data` in the temporary directory. -/
def stagedRoot (d : Destination) (item : String) : Option Subtree :=
  if (entryAt d ["data", item]).isSome then some fun path => entryAt d ("data" :: item :: path)
  else none

def isDir (t : Subtree) : Bool := t [] == some .dir

/-- `os.Rename` replaces a file by a file only. -/
def blocks (there node : Subtree) : Bool := isDir there || isDir node

def restore (target : String → Option Subtree) (d : Destination) :
    Except Op Transaction × Disk Subtree :=
  installRestoredData blocks (fun _ => false) (initial target (stagedRoot d))

/-! ## The written archive is valid -/

/-- An archive that a writer has made: the configuration, the roots and the manifest. -/
def archiveOf (s : PanelData) (config manifest : Content) : List ArchiveEntry :=
  configEntry config :: (rootEntries s panelBackupDataRoots ++ [manifestEntry manifest])

variable {s : PanelData} {config manifest : Content} {e : ArchiveEntry} {item : String}

theorem mem_archiveOf : e ∈ archiveOf s config manifest ↔
    e = configEntry config ∨ (∃ item ∈ panelBackupDataRoots, e ∈ (writeRoot s item).1) ∨
      e = manifestEntry manifest := by
  unfold archiveOf rootEntries
  rw [List.mem_cons, List.mem_append, List.mem_flatMap, List.mem_singleton]

/-- What is below a root in the archive was written of that root. -/
theorem mem_of_below (he : e ∈ archiveOf s config manifest) (h : ["data", item] <+: e.parts) :
    e ∈ (writeRoot s item).1 := by
  rcases mem_archiveOf.mp he with rfl | ⟨other, _, hother⟩ | rfl
  · obtain ⟨more, hmore⟩ := h
    simp [configEntry] at hmore
  · obtain ⟨_, path, _, hparts, _⟩ := mem_writeRoot hother
    rw [hparts] at h
    have hsame : item = other := by
      obtain ⟨more, hmore⟩ := h
      simp only [List.cons_append, List.nil_append, List.cons.injEq] at hmore
      exact hmore.2.1
    exact hsame ▸ hother
  · obtain ⟨more, hmore⟩ := h
    simp [manifestEntry] at hmore

theorem fileName_of_chars {part : String} (h : part ≠ "" ∧ part ≠ "." ∧ part ≠ "..")
    (hslash : part.toList.contains '/' = false) : FileName part := by
  refine ⟨h, fun hmem => ?_⟩
  rw [List.contains_iff_mem.mpr hmem] at hslash
  cases hslash

theorem fileName_fixed : ∀ part ∈ ["panel", "config.json", "data", "manifest.json"] ++
    panelBackupDataRoots, FileName part := by
  have hall : (["panel", "config.json", "data", "manifest.json"] ++ panelBackupDataRoots).all
      (fun part => !(part == "") && !(part == ".") && !(part == "..") &&
        !part.toList.contains '/') = true := by decide
  intro part hpart
  have h := List.all_eq_true.mp hall part hpart
  simp only [Bool.and_eq_true, Bool.not_eq_true', beq_eq_false_iff_ne] at h
  exact fileName_of_chars ⟨h.1.1.1, h.1.1.2, h.1.2⟩ h.2

theorem panelBackupDataRoots_nodup : panelBackupDataRoots.Nodup := by decide

theorem named_archiveOf {e : ArchiveEntry} (he : e ∈ archiveOf s config manifest) :
    e.parts ≠ [] ∧ ∀ part ∈ e.parts, FileName part := by
  rcases mem_archiveOf.mp he with rfl | ⟨item, hitem, he⟩ | rfl
  · refine ⟨List.cons_ne_nil _ _, fun part hpart => fileName_fixed part ?_⟩
    simp only [configEntry, List.mem_cons, List.not_mem_nil, or_false] at hpart
    rcases hpart with rfl | rfl <;> simp
  · obtain ⟨tree, path, htree, hparts, hkind⟩ := mem_writeRoot he
    rw [hparts]
    refine ⟨by simp, fun part hpart => ?_⟩
    rw [List.mem_append] at hpart
    rcases hpart with hpart | hpart
    · refine fileName_fixed part ?_
      rw [List.mem_cons, List.mem_singleton] at hpart
      rcases hpart with rfl | rfl
      · simp
      · exact List.mem_append_right _ hitem
    · obtain ⟨k, hk⟩ : ∃ k, (path, k) ∈ tree.list := by
        rcases hkind with ⟨_, hmem⟩ | ⟨content, _, hmem⟩
        · exact ⟨_, hmem⟩
        · exact ⟨_, hmem⟩
      exact s.named item tree htree _ hk part hpart
  · refine ⟨List.cons_ne_nil _ _, fun part hpart => fileName_fixed part ?_⟩
    rw [List.mem_singleton.mp hpart]
    simp

theorem allowed_archiveOf {e : ArchiveEntry} (he : e ∈ archiveOf s config manifest) :
    allowedPanelBackupEntry e.parts = true := by
  rcases mem_archiveOf.mp he with rfl | ⟨item, hitem, he⟩ | rfl
  · rfl
  · obtain ⟨_, path, _, hparts, _⟩ := mem_writeRoot he
    rw [hparts]
    exact decide_eq_true hitem
  · rfl

/-- The roots are below `data`, apart from the two files beside them. -/
theorem compatible_archiveOf : Compatible ((archiveOf s config manifest).map ArchiveEntry.key) := by
  have hroots := compatible_rootEntries s panelBackupDataRoots_nodup
  have hapart : ∀ a ∈ (rootEntries s panelBackupDataRoots).map ArchiveEntry.key,
      ["data"] <+: a.1 := by
    intro a ha
    obtain ⟨e, he, rfl⟩ := List.mem_map.mp ha
    obtain ⟨item, _, he⟩ := mem_rootEntries he
    obtain ⟨_, path, _, hparts, _⟩ := mem_writeRoot he
    exact ⟨item :: path, hparts.symm⟩
  unfold archiveOf
  rw [List.map_cons, List.map_append, ← List.singleton_append]
  refine Compatible.append (List.pairwise_singleton _ _)
    (hroots.append (List.pairwise_singleton _ _) fun a ha b hb hmeets => ?_)
    fun a ha b hb hmeets => ?_
  · obtain rfl := List.mem_singleton.mp hb
    exact (show ¬ Meets ["data"] ["manifest.json"] by decide)
      (hmeets.above (hapart a ha) (List.prefix_refl _))
  · obtain rfl := List.mem_singleton.mp ha
    rcases List.mem_append.mp hb with hb | hb
    · exact (show ¬ Meets ["panel", "config.json"] ["data"] by decide)
        (hmeets.above (List.prefix_refl _) (hapart b hb))
    · obtain rfl := List.mem_singleton.mp hb
      exact (show ¬ Meets ["panel", "config.json"] ["manifest.json"] by decide) hmeets

theorem valid_archiveOf (hsizes : ∀ e ∈ archiveOf s config manifest,
    (e.body.length : Int) ≤ maxPanelBackupBytes.toInt) : Valid (archiveOf s config manifest) where
  named _ := named_archiveOf
  allowed _ := allowed_archiveOf
  compatible := compatible_archiveOf
  sizes := hsizes

/-! ## What the extraction finds of a root -/

variable {d : Destination} {tree : Tree}

/-- Files of one path are the same file. -/
theorem file_unique (hvalid : Valid (archiveOf s config manifest))
    (hholds : Holds d (archiveOf s config manifest)) {path : List String}
    {bytes bytes' : List UInt8} (h : (path, bytes) ∈ d.files) (h' : (path, bytes') ∈ d.files) :
    bytes = bytes' := by
  obtain ⟨e, he, content, hcontent, rfl, rfl⟩ := (hholds.files path bytes).mp h
  obtain ⟨f, hf, content', hcontent', hparts, rfl⟩ := (hholds.files e.parts bytes').mp h'
  have hsame : e.key = f.key := by
    by_contra hne
    have hsymm : Std.Symm fun a b : List String × Option Content =>
        (a.2.isSome = true → ¬ a.1 <+: b.1) ∧ (b.2.isSome = true → ¬ b.1 <+: a.1) :=
      ⟨fun _ _ hab => ⟨hab.2, hab.1⟩⟩
    have hpair := hvalid.compatible.forall (List.mem_map_of_mem he) (List.mem_map_of_mem hf) hne
    have hsome : e.content.isSome = true := by rw [hcontent]; rfl
    exact hpair.1 hsome ⟨[], (List.append_nil _).trans hparts.symm⟩
  have hcontents : e.content = f.content := congrArg Prod.snd hsame
  rw [hcontent, hcontent'] at hcontents
  rw [Option.some.inj hcontents]

theorem entryAt_file (hvalid : Valid (archiveOf s config manifest))
    (hholds : Holds d (archiveOf s config manifest)) {path : List String} {bytes : List UInt8}
    (h : (path, bytes) ∈ d.files) : entryAt d path = some (.file bytes) := by
  cases hlookup : d.files.lookup path with
  | none =>
    have := List.lookup_eq_none_iff.mp hlookup _ h
    simp at this
  | some bytes' =>
    obtain ⟨before, after, hfiles, _⟩ := List.lookup_eq_some_iff.mp hlookup
    have hmem : (path, bytes') ∈ d.files := hfiles ▸ List.mem_append_right _ List.mem_cons_self
    unfold entryAt
    rw [hlookup, file_unique hvalid hholds h hmem]

theorem entryAt_of_no_file {path : List String} (h : ∀ bytes, (path, bytes) ∉ d.files) :
    entryAt d path = if d.dirs.contains path then some .dir else none := by
  have hlookup : d.files.lookup path = none := by
    rw [List.lookup_eq_none_iff]
    intro f hf
    rw [bne_iff_ne]
    rintro rfl
    exact h f.2 hf
  unfold entryAt
  rw [hlookup]

/-- Nothing is found of a root that the panel does not have. -/
theorem stagedRoot_absent (hholds : Holds d (archiveOf s config manifest))
    (hnone : s.root item = none) : stagedRoot d item = none := by
  have hnothing : ∀ e ∈ archiveOf s config manifest, ¬ ["data", item] <+: e.parts := by
    intro e he hpre
    have := mem_of_below he hpre
    rw [writeRoot_none hnone] at this
    cases this
  have hentry : entryAt d ["data", item] = none := by
    rw [entryAt_of_no_file]
    · rw [if_neg]
      rw [List.contains_iff_mem, hholds.dirs]
      rintro ⟨e, he, hpre⟩
      exact hnothing e he (hpre.trans (directory_above e))
    · intro bytes hmem
      obtain ⟨e, he, _, _, hparts, _⟩ := (hholds.files _ _).mp hmem
      exact hnothing e he (hparts ▸ List.prefix_refl _)
  unfold stagedRoot
  rw [hentry]
  rfl

theorem mem_tree_of_below (hitem : s.root item = some tree)
    (he : e ∈ archiveOf s config manifest) {path : List String}
    (hpre : ["data", item] ++ path <+: e.parts) :
    ∃ below, e.parts = ["data", item] ++ (path ++ below) ∧
      (e.content = none ∧ tree.get (path ++ below) = some none ∨
        ∃ content, e.content = some content ∧
          tree.get (path ++ below) = some (some (.file content))) := by
  have hbelow := mem_of_below he ((List.prefix_append _ path).trans hpre)
  obtain ⟨tree', path', htree, hparts, hkind⟩ := mem_writeRoot hbelow
  obtain rfl := Option.some.inj (hitem.symm.trans htree)
  have hget : ∀ k, (path', k) ∈ tree.list ↔ tree.get path' = some k := fun _ =>
    Node.mem_list (s.distinct item tree hitem)
  obtain ⟨below, hmore⟩ := hpre
  have hpath : path' = path ++ below := by
    rw [hparts, List.append_assoc] at hmore
    exact (List.append_cancel_left hmore).symm
  rw [hpath] at hparts hkind hget
  refine ⟨below, hparts, ?_⟩
  rcases hkind with ⟨hnone, hmem⟩ | ⟨content, hcontent, hmem⟩
  · exact Or.inl ⟨hnone, (hget _).mp hmem⟩
  · exact Or.inr ⟨content, hcontent, (hget _).mp hmem⟩

/-- A file found below a root is a file of its tree. -/
theorem tree_file_of_mem (hitem : s.root item = some tree)
    (hholds : Holds d (archiveOf s config manifest)) {path : List String} {bytes : List UInt8}
    (hmem : (["data", item] ++ path, bytes) ∈ d.files) :
    ∃ content, tree.get path = some (some (.file content)) := by
  obtain ⟨e, he, content, hcontent, hparts, _⟩ := (hholds.files _ _).mp hmem
  have hpre : ["data", item] ++ path <+: e.parts := ⟨[], (List.append_nil _).trans hparts.symm⟩
  obtain ⟨below, hbelow, hkind⟩ := mem_tree_of_below hitem he hpre
  have hnil : below = [] := by
    rw [hparts] at hbelow
    simpa using hbelow
  rw [hnil, List.append_nil] at hkind
  rcases hkind with ⟨hnone, _⟩ | ⟨content', _, hget⟩
  · rw [hcontent] at hnone
    cases hnone
  · exact ⟨content', hget⟩

/-- A directory found below a root is a node of its tree. -/
theorem tree_found_of_dir (hitem : s.root item = some tree)
    (hholds : Holds d (archiveOf s config manifest)) {path : List String}
    (hmem : ["data", item] ++ path ∈ d.dirs) : tree.get path ≠ none := by
  obtain ⟨e, he, hpre⟩ := (hholds.dirs _).mp hmem
  obtain ⟨below, _, hkind⟩ := mem_tree_of_below hitem he (hpre.trans (directory_above e))
  have hfound : ∃ k, tree.get (path ++ below) = some k := by
    rcases hkind with ⟨_, hk⟩ | ⟨_, _, hk⟩
    · exact ⟨_, hk⟩
    · exact ⟨_, hk⟩
  obtain ⟨k, hk⟩ := hfound
  intro hnone
  by_cases hnil : below = []
  · rw [hnil, List.append_nil, hnone] at hk
    cases hk
  · rw [Node.get_above hk hnil] at hnone
    cases hnone

/-- What the extraction finds below a root that was written whole. -/
theorem entryAt_root (hregular : s.Regular) (hroot : item ∈ panelBackupDataRoots)
    (hitem : s.root item = some tree) (hwhole : Whole s item)
    (hvalid : Valid (archiveOf s config manifest))
    (hholds : Holds d (archiveOf s config manifest)) (path : List String) :
    entryAt d (["data", item] ++ path) = subtree tree path := by
  have hlist : ∀ k, (path, k) ∈ tree.list ↔ tree.get path = some k := fun _ =>
    Node.mem_list (s.distinct item tree hitem)
  -- every node of the tree is in the archive
  have hwritten : ∀ e, e ∈ tree.list.filterMap (entryOf ["data", item]) →
      e ∈ archiveOf s config manifest := by
    intro e he
    rw [← (writeRoot_walked hitem).complete (hwhole tree hitem)] at he
    exact mem_archiveOf.mpr (Or.inr (Or.inl ⟨item, hroot, he⟩))
  have hnofile : (∀ content, tree.get path ≠ some (some (.file content))) →
      ∀ bytes, (["data", item] ++ path, bytes) ∉ d.files := by
    intro hnot bytes hmem
    obtain ⟨content, hget⟩ := tree_file_of_mem hitem hholds hmem
    exact hnot content hget
  unfold subtree
  cases hget : tree.get path with
  | none =>
    rw [entryAt_of_no_file (hnofile fun content => by simp [hget]), if_neg]
    · rfl
    · rw [List.contains_iff_mem]
      exact fun hmem => tree_found_of_dir hitem hholds hmem hget
  | some kind =>
    cases kind with
    | none =>
      rw [entryAt_of_no_file (hnofile fun content => by simp [hget]), if_pos]
      · rfl
      · rw [List.contains_iff_mem, hholds.dirs]
        exact ⟨⟨["data", item] ++ path, none⟩, hwritten _ (mem_entries.mpr
          ⟨path, rfl, Or.inl ⟨rfl, (hlist _).mpr hget⟩⟩), List.prefix_refl _⟩
    | some leaf =>
      obtain ⟨content, rfl⟩ := hregular item hroot tree hitem path leaf ((hlist _).mpr hget)
      refine entryAt_file hvalid hholds ((hholds.files _ _).mpr ?_)
      exact ⟨⟨["data", item] ++ path, some content⟩, hwritten _ (mem_entries.mpr
        ⟨path, rfl, Or.inr ⟨content, rfl, (hlist _).mpr hget⟩⟩), content, rfl, rfl, rfl⟩

theorem get_root (tree : Tree) : ∃ k, tree.get [] = some k := by
  cases tree with
  | leaf leaf => exact ⟨_, by rw [Node.get]⟩
  | dir entries => exact ⟨_, by rw [Node.get]⟩

/-- A root that was written whole is staged as it was. -/
theorem stagedRoot_whole (hregular : s.Regular) (hroot : item ∈ panelBackupDataRoots)
    (hitem : s.root item = some tree) (hwhole : Whole s item)
    (hvalid : Valid (archiveOf s config manifest))
    (hholds : Holds d (archiveOf s config manifest)) :
    stagedRoot d item = some (subtree tree) := by
  have hentry := entryAt_root hregular hroot hitem hwhole hvalid hholds
  have hfound : (entryAt d ["data", item]).isSome = true := by
    obtain ⟨k, hk⟩ := get_root tree
    have := hentry []
    rw [List.append_nil] at this
    rw [this, subtree, hk]
    rfl
  unfold stagedRoot
  rw [if_pos hfound]
  exact congrArg some (funext fun path => hentry path)

/-! ## Restoring -/

/-- No regular file of the tree exceeds the limit for one file. -/
def Fits (tree : Tree) : Prop :=
  ∀ path content, (path, some (.file content)) ∈ tree.list → content.fits = true

/-- The installation succeeds, and after its commit each backup root of the target has the
property. -/
def Restores (target : String → Option Subtree) (P : String → Option Subtree → Prop)
    (d : Destination) : Prop :=
  ∃ tx disk, restore target d = (.ok tx, disk) ∧ ∀ item ∈ panelBackupDataRoots,
    P item ((commit tx disk).2.2.dataRoot item)

/-- A root that is staged is restored; any other stays as it is. -/
theorem restores_iff (target : String → Option Subtree) {d : Destination}
    {P : String → Option Subtree → Prop} :
    Restores target P d ↔ ∀ item ∈ panelBackupDataRoots,
      P item (if (stagedRoot d item).isSome then stagedRoot d item else target item) := by
  obtain ⟨tx, disk, hinstall, hinstalled⟩ :=
    installRestoredData_ok blocks (fun _ => rfl) target (stagedRoot d)
  have hdata : ∀ item ∈ panelBackupDataRoots, (commit tx disk).2.2.dataRoot item =
      if (stagedRoot d item).isSome then stagedRoot d item else target item := by
    intro item hitem
    have hroot : panelBackupDataRoots.contains item = true := List.contains_iff_mem.mpr hitem
    have hall : (commit tx disk).2.2.dataRoot = replaced target (stagedRoot d) :=
      (hinstalled.commit.2 []).1
    rw [hall, replaced, hroot, Bool.true_and]
  constructor
  · rintro ⟨tx', disk', hinstall', hP⟩ item hitem
    obtain ⟨htx, hdisk⟩ := Prod.mk.inj (hinstall.symm.trans hinstall')
    obtain rfl := Except.ok.inj htx
    obtain rfl := hdisk
    exact hdata item hitem ▸ hP item hitem
  · intro hP
    refine ⟨tx, disk, hinstall, fun item hitem => ?_⟩
    rw [hdata item hitem]
    exact hP item hitem

/-- What stands in the target for a backup root: the part of it that was written, which is the whole
in a scheduled backup and where every file is within the limit; where nothing was written, or the
panel has no such root, what stood there. -/
def AsBackedUp (s : PanelData) (writer : Writer) (target : String → Option Subtree)
    (item : String) (restored : Option Subtree) : Prop :=
  match s.root item with
  | none => restored = target item
  | some tree => (writer = .scheduled ∨ Fits tree → restored = some (subtree tree)) ∧
    match (kept tree).1 with
    | none => restored = target item
    | some part => restored = some (subtree part)

theorem size_of_within {archive : List ArchiveEntry} (hlimits : WithinLimits archive) :
    ∀ e ∈ archive, (e.body.length : Int) ≤ maxPanelBackupBytes.toInt := by
  intro e he
  have hsize := body_le_totalSize he
  have hbytes := hlimits.bytes
  omega

/-- Panels of whose roots the walks write the same have the same archive. -/
theorem archiveOf_congr {t : PanelData}
    (h : ∀ item ∈ panelBackupDataRoots, (writeRoot s item).1 = (writeRoot t item).1) :
    archiveOf s config manifest = archiveOf t config manifest := by
  unfold archiveOf rootEntries
  rw [List.flatMap_def, List.flatMap_def, List.map_congr_left h]

/-- The archive of a panel is that of the panel with what is left of its roots. -/
theorem archiveOf_keptPanel (s : PanelData) (config manifest : Content) :
    archiveOf (keptPanel s) config manifest = archiveOf s config manifest :=
  archiveOf_congr fun item _ => (writeRoot_keptPanel s item).1

/-- The part that was written is staged. -/
theorem stagedRoot_kept (hregular : s.Regular) (hroot : item ∈ panelBackupDataRoots)
    (hitem : s.root item = some tree) (hvalid : Valid (archiveOf s config manifest))
    (hholds : Holds d (archiveOf s config manifest)) :
    stagedRoot d item = (kept tree).1.map subtree := by
  have hkept := keptPanel_root hitem
  rw [← archiveOf_keptPanel] at hvalid hholds
  cases hpart : (kept tree).1 with
  | none =>
    rw [hpart] at hkept
    exact stagedRoot_absent hholds hkept
  | some part =>
    rw [hpart] at hkept
    exact stagedRoot_whole (keptPanel_regular hregular) hroot hkept (writeRoot_keptPanel s item).2
      hvalid hholds

/-- **What the panel writes within the limits, it restores.** An archive of a panel whose backup
roots are regular files and directories is accepted, and after its installation every root the
panel has replaces that of the target: the whole of it, or, in an export of a root with a file over
the limit, what was written before that file. A root the panel does not have, and one of which
nothing was written, stays what it is in the target. -/
theorem written_within_limits_restores {s : PanelData} {manifest : Content} {writer : Writer}
    {archive : List ArchiveEntry} (hregular : s.Regular)
    (hwrite : writer.write s manifest = .ok archive) (hlimits : WithinLimits archive)
    (target : String → Option Subtree) :
    Accepted archive (Restores target (AsBackedUp s writer target)) := by
  obtain ⟨config, rfl, hscheduled⟩ := write_eq hwrite
  have hvalid : Valid (archiveOf s config manifest) := valid_archiveOf (size_of_within hlimits)
  refine (accepted_of_within hvalid hlimits).mono fun d hholds => ?_
  refine (restores_iff target).mpr fun item hitem => ?_
  unfold AsBackedUp
  cases hroot : s.root item with
  | none =>
    rw [stagedRoot_absent hholds hroot]
    rfl
  | some tree =>
    refine ⟨fun hall => ?_, ?_⟩
    · have hwhole : Whole s item := by
        rcases hall with hwriter | hfits
        · exact hscheduled hwriter item hitem
        · intro tree' htree'
          obtain rfl := Option.some.inj (hroot.symm.trans htree')
          exact (writeRoot_walked hroot).fits hfits
      rw [stagedRoot_whole hregular hitem hroot hwhole hvalid hholds]
      rfl
    · rw [stagedRoot_kept hregular hitem hroot hvalid hholds]
      cases hpart : (kept tree).1 with
      | none => rfl
      | some part => rfl

def braces : Content := ⟨[123, 125], by decide⟩

theorem auditLog_of_root {item : String} {tree : Tree}
    (h : (if item == "audit.jsonl" then some (.leaf (.file braces)) else none) = some tree) :
    tree = .leaf (.file braces) := by
  split at h
  · exact (Option.some.inj h).symm
  · cases h

/-- A panel with an audit log and no other data yet. -/
def auditPanel : PanelData where
  configPath := "/etc/lukepanel/config.json"
  dataDir := "/var/lib/lukepanel"
  config := some braces
  root item := if item == "audit.jsonl" then some (.leaf (.file braces)) else none
  distinct _ _ h := by
    rw [auditLog_of_root h, Node.Distinct]
    exact trivial
  named _ _ h e he := by
    rw [auditLog_of_root h, Node.list, List.mem_singleton] at he
    rw [he]
    exact fun _ hpart => absurd hpart List.not_mem_nil

theorem auditPanel_regular : auditPanel.Regular := by
  intro item _ tree htree path leaf hmem
  rw [auditLog_of_root htree, Node.list, List.mem_singleton] at hmem
  exact ⟨braces, Option.some.inj (Prod.mk.inj hmem).2⟩

/-- A panel with file preferences. -/
def preferencesTarget (item : String) : Option Subtree :=
  if item == "file-preferences.json" then some (subtree (.leaf (.file braces))) else none

theorem auditPanel_written :
    Writer.scheduled.write auditPanel braces = .ok (archiveOf auditPanel braces braces) := rfl

theorem auditPanel_within : WithinLimits (archiveOf auditPanel braces braces) :=
  ⟨by decide, by decide⟩

/-- The audit log is restored, and the file preferences stay. -/
theorem auditPanel_restores :
    Accepted (archiveOf auditPanel braces braces)
      (Restores preferencesTarget (AsBackedUp auditPanel .scheduled preferencesTarget)) :=
  written_within_limits_restores auditPanel_regular auditPanel_written auditPanel_within
    preferencesTarget

/-! ## Panels that are not restored -/

/-- Every archive the writer makes of the panel is accepted, and gives the target the roots of
the panel and no others. -/
def RoundTrips (writer : Writer) (s : PanelData) (manifest : Content)
    (target : String → Option Subtree) : Prop :=
  s.Regular → ∀ archive, writer.write s manifest = .ok archive →
    Accepted archive (Restores target fun item restored =>
      restored = (s.root item).map subtree)

/-- A root of the target that the panel does not have stays. -/
theorem not_roundTrips_of_absent {writer : Writer} {archive : List ArchiveEntry}
    {target : String → Option Subtree} (hregular : s.Regular)
    (hwrite : writer.write s manifest = .ok archive) (hlimits : WithinLimits archive)
    (item : String) (hitem : item ∈ panelBackupDataRoots) (hroot : s.root item = none)
    (htarget : target item ≠ none) : ¬ RoundTrips writer s manifest target := by
  intro hround
  obtain ⟨hall, t, ht, hreturned⟩ := hround hregular archive hwrite
  have hrestored := (restores_iff target).mp (hall t ht hreturned).2 item hitem
  obtain ⟨config, rfl, _⟩ := write_eq hwrite
  have hvalid : Valid (archiveOf s config manifest) := valid_archiveOf (size_of_within hlimits)
  have hholds := ((accepted_of_within hvalid hlimits).1 t ht hreturned).2
  rw [stagedRoot_absent hholds hroot, hroot] at hrestored
  exact htarget hrestored

theorem size_of_fits {content : Content} (h : content.fits = true) :
    (content.bytes.length : Int) ≤ maxPanelBackupBytes.toInt := by
  unfold Content.fits at h
  rw [Bool.not_eq_true', decide_eq_false_iff_not, Int64.lt_iff_toInt_lt,
    Content.size_toInt] at h
  omega

theorem sizes_archiveOf (hconfig : config.fits = true) (hmanifest : manifest.fits = true) :
    ∀ e ∈ archiveOf s config manifest, (e.body.length : Int) ≤ maxPanelBackupBytes.toInt := by
  intro e he
  rcases mem_archiveOf.mp he with rfl | ⟨item, _, he⟩ | rfl
  · exact size_of_fits hconfig
  · unfold ArchiveEntry.body
    cases hcontent : e.content with
    | none => decide
    | some content =>
      cases htree : s.root item with
      | none =>
        rw [writeRoot_none htree] at he
        cases he
      | some tree => exact size_of_fits ((writeRoot_walked htree).written e he content hcontent)
  · exact size_of_fits hmanifest

/-- The export always makes an archive. -/
theorem backupExport_ok (hconfig : s.config = some config) (hfits : config.fits = true) :
    backupExport s manifest = .ok (archiveOf s config manifest) := by
  have hwritten : writeConfig s = ([configEntry config], none) := by
    unfold Content.fits at hfits
    rw [Bool.not_eq_true', decide_eq_false_iff_not] at hfits
    unfold writeConfig writeBackupPath
    rw [hconfig, Option.map_some]
    simp only [walk, if_neg hfits]
    rfl
  unfold backupExport
  rw [hwritten]
  simp only [List.append_assoc [configEntry config], ← List.flatMap_append, roots_audit_first]
  rfl

/-- The export of a panel with more than the limits is refused. -/
theorem not_roundTrips_of_beyond {target : String → Option Subtree} (hregular : s.Regular)
    (hconfig : s.config = some config) (hfits : config.fits = true)
    (hmanifest : manifest.fits = true)
    (hbeyond : ¬ WithinLimits (archiveOf s config manifest)) :
    ¬ RoundTrips .exported s manifest target := fun hround =>
  refused_of_beyond (valid_archiveOf (sizes_archiveOf hfits hmanifest)) hbeyond _
    (hround hregular _ (backupExport_ok hconfig hfits))

def fileName (n : ℕ) : String := String.ofList (List.replicate (n + 1) 'a')

/-- A directory of `n` entries that all hold the same. -/
def wide (n : ℕ) (node : Tree) : Tree := .dir ((List.range n).map fun i => (fileName i, node))

/-- A hundred directories of a hundred empty files. -/
def crowd : Tree := wide 100 (wide 100 (.leaf (.file ⟨[], by decide⟩)))

theorem fileName_fileName (n : ℕ) : FileName (fileName n) := by
  have hlist : (fileName n).toList = List.replicate (n + 1) 'a' := String.toList_ofList
  have hne : ∀ part : String, 'a' ∉ part.toList → fileName n ≠ part := by
    rintro part hpart rfl
    rw [hlist] at hpart
    exact hpart (List.mem_replicate.mpr ⟨Nat.succ_ne_zero n, rfl⟩)
  refine ⟨⟨hne "" (by decide), hne "." (by decide), hne ".." (by decide)⟩, fun hslash => ?_⟩
  rw [hlist] at hslash
  exact absurd (List.eq_of_mem_replicate hslash) (by decide)

theorem fileName_injective {m n : ℕ} (h : fileName m = fileName n) : m = n := by
  have hlength := congrArg (fun name => name.toList.length) h
  simpa [fileName] using hlength

theorem distinct_wide {node : Tree} (h : node.Distinct) (n : ℕ) : (wide n node).Distinct := by
  rw [wide, Node.Distinct]
  constructor
  · rw [List.map_map]
    exact (List.nodup_range).map fun _ _ heq => fileName_injective heq
  · generalize List.range n = names
    induction names with
    | nil => exact trivial
    | cons i rest ih => exact ⟨h, ih⟩

theorem mem_wide {node : Tree} {n : ℕ} {path : List String} {k : Option Leaf}
    (h : (path, k) ∈ (wide n node).list) :
    path = [] ∧ k = none ∨
      ∃ i below, path = fileName i :: below ∧ (below, k) ∈ node.list := by
  rw [wide, Node.list, List.mem_cons] at h
  rcases h with heq | h
  · exact Or.inl (Prod.mk.inj heq)
  · right
    revert h
    generalize List.range n = names
    induction names with
    | nil => exact fun h => absurd h List.not_mem_nil
    | cons i rest ih =>
      intro h
      rcases mem_listEntries_cons.mp h with ⟨below, hpath, hmem⟩ | hrest
      · exact ⟨i, below, hpath, hmem⟩
      · exact ih hrest

theorem length_wide (n : ℕ) (node : Tree) :
    (wide n node).list.length = n * node.list.length + 1 := by
  have hentries : ∀ names : List ℕ,
      (listEntries (names.map fun i => (fileName i, node))).length =
        names.length * node.list.length := by
    intro names
    induction names with
    | nil => simp [listEntries]
    | cons i rest ih =>
      rw [List.map_cons, listEntries, List.length_append, List.length_map, ih, List.length_cons,
        Nat.succ_mul, Nat.add_comm]
  rw [wide, Node.list, List.length_cons, hentries, List.length_range]

/-- Below `crowd` there are directories and empty files. -/
theorem mem_crowd {path : List String} {k : Option Leaf} (h : (path, k) ∈ crowd.list) :
    (∀ part ∈ path, FileName part) ∧ (k = none ∨ k = some (.file ⟨[], by decide⟩)) := by
  rcases mem_wide h with ⟨rfl, rfl⟩ | ⟨i, below, rfl, hbelow⟩
  · exact ⟨fun _ hpart => absurd hpart List.not_mem_nil, Or.inl rfl⟩
  rcases mem_wide hbelow with ⟨rfl, rfl⟩ | ⟨j, below, rfl, hleaf⟩
  · refine ⟨fun part hpart => ?_, Or.inl rfl⟩
    rw [List.mem_singleton.mp hpart]
    exact fileName_fileName i
  · rw [Node.list, List.mem_singleton] at hleaf
    obtain ⟨rfl, rfl⟩ := Prod.mk.inj hleaf
    refine ⟨fun part hpart => ?_, Or.inr rfl⟩
    rcases List.mem_cons.mp hpart with rfl | hpart
    · exact fileName_fileName i
    · rw [List.mem_singleton.mp hpart]
      exact fileName_fileName j

theorem crowd_of_root {item : String} {tree : Tree}
    (h : (if item == "recycle" then some crowd else none) = some tree) : tree = crowd := by
  split at h
  · exact (Option.some.inj h).symm
  · cases h

/-- A panel with a full recycle bin. -/
def crowdedPanel : PanelData where
  configPath := "/etc/lukepanel/config.json"
  dataDir := "/var/lib/lukepanel"
  config := some braces
  root item := if item == "recycle" then some crowd else none
  distinct _ _ h := by
    rw [crowd_of_root h]
    exact distinct_wide (distinct_wide (by rw [Node.Distinct]; trivial) 100) 100
  named _ _ h e he := by
    rw [crowd_of_root h] at he
    exact (mem_crowd he).1

theorem crowdedPanel_regular : crowdedPanel.Regular := by
  intro item _ tree htree path leaf hmem
  rw [crowd_of_root htree] at hmem
  rcases (mem_crowd hmem).2 with hnone | hfile
  · cases hnone
  · exact ⟨_, Option.some.inj hfile⟩

/-- The recycle bin alone is more than the extraction takes. -/
theorem crowdedPanel_beyond :
    ¬ WithinLimits (archiveOf crowdedPanel braces braces) := by
  intro hlimits
  have hroot : crowdedPanel.root "recycle" = some crowd := rfl
  have hfits : Fits crowd := by
    intro path content hmem
    rcases (mem_crowd hmem).2 with hnone | hfile
    · cases hnone
    · cases hfile
      decide
  have hwalked := writeRoot_walked hroot
  have hlength : (writeRoot crowdedPanel "recycle").1.length = crowd.list.length := by
    rw [hwalked.complete (hwalked.fits hfits), List.filterMap_length_eq_length]
    rintro ⟨path, k⟩ hmem
    rcases (mem_crowd hmem).2 with rfl | rfl
    · rfl
    · rfl
  have hcrowd : crowd.list.length = 10101 := by
    rw [crowd, length_wide, length_wide, Node.list]
    rfl
  have hfiles := hlimits.files
  obtain ⟨before, after, hroots⟩ := List.append_of_mem
    (show "recycle" ∈ panelBackupDataRoots by decide)
  unfold archiveOf rootEntries at hfiles
  rw [hroots, List.flatMap_append, List.flatMap_cons] at hfiles
  simp only [List.length_cons, List.length_append, hlength, hcrowd] at hfiles
  have : maxPanelBackupFiles = 10000 := rfl
  omega

/-! ## An export of a part -/

/-- A recycle bin with a small file, and perhaps another behind it. -/
def bin (more : Option Content) : Tree :=
  .dir ((fileName 0, .leaf (.file braces)) ::
    more.toList.map fun content => (fileName 1, .leaf (.file content)))

theorem mem_bin {more : Option Content} {path : List String} {k : Option Leaf} :
    (path, k) ∈ (bin more).list ↔ path = [] ∧ k = none ∨
      path = [fileName 0] ∧ k = some (.file braces) ∨
      ∃ content, more = some content ∧ path = [fileName 1] ∧ k = some (.file content) := by
  cases more <;> simp [bin, Node.list, listEntries]

theorem distinct_bin (more : Option Content) : (bin more).Distinct := by
  have hne : fileName 0 ≠ fileName 1 := fun h => absurd (fileName_injective h) (by decide)
  cases more <;> simp [bin, Node.Distinct, DistinctEntries, hne]

theorem bin_of_root {more : Option Content} {item : String} {tree : Tree}
    (h : (if item == "recycle" then some (bin more) else none) = some tree) :
    item = "recycle" ∧ tree = bin more := by
  split at h
  · exact ⟨eq_of_beq ‹_›, (Option.some.inj h).symm⟩
  · cases h

/-- A panel with such a recycle bin. -/
def binPanel (more : Option Content) : PanelData where
  configPath := "/etc/lukepanel/config.json"
  dataDir := "/var/lib/lukepanel"
  config := some braces
  root item := if item == "recycle" then some (bin more) else none
  distinct _ _ h := by
    rw [(bin_of_root h).2]
    exact distinct_bin more
  named _ _ h e he := by
    rw [(bin_of_root h).2] at he
    obtain ⟨path, k⟩ := e
    intro part hpart
    rcases mem_bin.mp he with ⟨rfl, -⟩ | ⟨rfl, -⟩ | ⟨_, -, rfl, -⟩
    · cases hpart
    · rw [List.mem_singleton.mp hpart]
      exact fileName_fileName 0
    · rw [List.mem_singleton.mp hpart]
      exact fileName_fileName 1

theorem binPanel_regular (more : Option Content) : (binPanel more).Regular := by
  intro item _ tree htree path leaf hmem
  rw [(bin_of_root htree).2] at hmem
  rcases mem_bin.mp hmem with ⟨-, hk⟩ | ⟨-, hk⟩ | ⟨content, -, -, hk⟩
  · cases hk
  · exact ⟨braces, Option.some.inj hk⟩
  · exact ⟨content, Option.some.inj hk⟩

variable {large : Content}

/-- The walk ends at the large file, after the small one was written. -/
theorem writeRoot_large (hlarge : maxPanelBackupBytes < large.size) (item : String) :
    (writeRoot (binPanel (some large)) item).1 = (writeRoot (binPanel none) item).1 := by
  cases hitem : item == "recycle" with
  | false =>
    have hnone (more : Option Content) : (binPanel more).root item = none := by
      change (if item == "recycle" then _ else _) = _
      rw [hitem]
      rfl
    rw [writeRoot_none (hnone _), writeRoot_none (hnone _)]
  | true =>
    have hsome (more : Option Content) : (binPanel more).root item = some (bin more) := by
      change (if item == "recycle" then _ else _) = _
      rw [hitem]
      rfl
    have hsmall : ¬ maxPanelBackupBytes < braces.size := by decide
    simp [writeRoot, writeBackupPath, hsome, bin, walk, walkEntries, hlarge, hsmall]

/-- The export of the panel is that of the panel without the large file. -/
theorem backupExport_large (hlarge : maxPanelBackupBytes < large.size) :
    Writer.exported.write (binPanel (some large)) braces =
      .ok (archiveOf (binPanel none) braces braces) := by
  rw [Writer.write, backupExport_ok (show (binPanel (some large)).config = some braces from rfl) (by decide),
    archiveOf_congr fun item _ => writeRoot_large hlarge item]

/-- What is imported of it is the part before the large file. -/
theorem binPanel_restores (target : String → Option Subtree) :
    Accepted (archiveOf (binPanel none) braces braces)
      (Restores target fun item restored =>
        item = "recycle" → restored = some (subtree (bin none))) := by
  have hlimits : WithinLimits (archiveOf (binPanel none) braces braces) := ⟨by decide, by decide⟩
  have hvalid := valid_archiveOf (size_of_within hlimits)
  have hroot : (binPanel none).root "recycle" = some (bin none) := rfl
  have hfits : Fits (bin none) := by
    intro path content hmem
    rcases mem_bin.mp hmem with ⟨-, hk⟩ | ⟨-, hk⟩ | ⟨_, hnone, -⟩
    · cases hk
    · cases hk
      decide
    · cases hnone
  have hwhole : Whole (binPanel none) "recycle" := by
    intro tree htree
    obtain rfl := Option.some.inj (hroot.symm.trans htree)
    exact (writeRoot_walked hroot).fits hfits
  refine (accepted_of_within hvalid hlimits).mono fun d hholds =>
    (restores_iff target).mpr fun item hitem hrecycle => ?_
  subst hrecycle
  rw [stagedRoot_whole (binPanel_regular none) hitem hroot hwhole hvalid hholds]
  rfl

/-- The large file is missing in the part. -/
theorem subtree_bin_ne : subtree (bin none) ≠ subtree (bin (some large)) := by
  have hmem : ([fileName 1], some (.file large)) ∈ (bin (some large)).list :=
    mem_bin.mpr (.inr (.inr ⟨large, rfl, rfl, rfl⟩))
  intro heq
  have hget := congrFun heq [fileName 1]
  unfold subtree at hget
  rw [(Node.mem_list (distinct_bin _)).mp hmem] at hget
  obtain ⟨k, hk, -⟩ := Option.map_eq_some_iff.mp hget
  rcases mem_bin.mp ((Node.mem_list (distinct_bin none)).mpr hk) with ⟨hpath, -⟩ | ⟨hpath, -⟩ |
    ⟨_, hnone, -⟩
  · cases hpath
  · exact absurd (fileName_injective (List.cons.inj hpath).1) (by decide)
  · cases hnone

theorem not_roundTrips_of_part (hlarge : maxPanelBackupBytes < large.size)
    (target : String → Option Subtree) :
    ¬ RoundTrips .exported (binPanel (some large)) braces target := by
  intro hround
  obtain ⟨hall, t, ht, hreturned⟩ := hround (binPanel_regular _) _ (backupExport_large hlarge)
  have hitem : "recycle" ∈ panelBackupDataRoots := by decide
  have hwhole := (restores_iff target).mp (hall t ht hreturned).2 "recycle" hitem
  have hpart := (restores_iff target).mp ((binPanel_restores target).1 t ht hreturned).2 "recycle"
    hitem rfl
  exact subtree_bin_ne (Option.some.inj (hpart.symm.trans hwhole))

/-- A file over the limit for one file. -/
def huge : Content := ⟨List.replicate 2147483649 0, by rw [List.length_replicate]; decide⟩

theorem huge_over : maxPanelBackupBytes < huge.size := by
  have hlength : huge.bytes.length = 2147483649 := List.length_replicate
  rw [Int64.lt_iff_toInt_lt, Content.size_toInt, maxPanelBackupBytes_toInt, hlength]
  decide

/-- The scheduled backup of a panel without file preferences leaves those of the panel it is
imported into, the export of a full recycle bin cannot be imported at all, and that of a recycle bin
with a file over 2 GiB replaces the recycle bin of every target by what was written before it. -/
theorem not_every_backup_roundTrips :
    ¬ RoundTrips .scheduled auditPanel braces preferencesTarget ∧
      ¬ RoundTrips .exported crowdedPanel braces (fun _ => none) ∧
      ∃ archive, Writer.exported.write (binPanel (some huge)) braces = .ok archive ∧ ∀ target,
        Accepted archive (Restores target fun item restored =>
          item = "recycle" → restored = some (subtree (bin none))) ∧
        ¬ RoundTrips .exported (binPanel (some huge)) braces target := by
  refine ⟨?_, ?_, _, backupExport_large huge_over, fun target =>
    ⟨binPanel_restores target, not_roundTrips_of_part huge_over target⟩⟩
  · exact not_roundTrips_of_absent auditPanel_regular auditPanel_written auditPanel_within
      "file-preferences.json" (by decide) rfl (Option.some_ne_none _)
  · exact not_roundTrips_of_beyond crowdedPanel_regular (show crowdedPanel.config = some braces
      from rfl) (by decide) (by decide) crowdedPanel_beyond

end LukePanel.Server.BackupRoundTrip
