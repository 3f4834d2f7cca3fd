import LukePanel.GithubHelper.ImportHistory

/-! # What an import does to the tree

The tree of the commit that a successful `Commit` creates, against the tree of the branch at its
preview. `Prepare` compares the files of the archive with the blobs at their own paths only, so
it lets a file through that stands where the repository has a directory, or the other way; and it
accepts a name that is not text, which is changed on its way to the repository. -/
namespace LukePanel.GithubHelper.ImportOverlay
open LukePanel.GithubHelper.Archive LukePanel.GithubHelper.ImportHistory
open LukePanel.GithubHelper.Importer LukePanel.Library LukePanel.Library.Machine
open LukePanel.Library.PathTree

variable {κ : Type} {sha1 : List UInt8 → String} {git : Git κ} {s t : State κ} {a : Act κ}

/-! ## The changes of a preview -/

/-- The entry that `Commit` uploads for a change. -/
def entryFor (sha1 : List UInt8 → String) (files : List ArchiveFile) (change : ImportChange) :
    Option (List String × GitTreeEntry) :=
  (files.find? (·.path == change.path)).map (uploadedEntry sha1)

theorem existing_get {t : RepoTree} {p : List String} {old : GitTreeEntry} :
    (existingBlobs t).get p = some old ↔ t.get p = some old ∧ old.type = .blob := by
  rw [existingBlobs, Tree.get_filter, beq_iff_eq]

/-- A file is unchanged exactly if the tree has its entry. -/
theorem classify_eq_none {t : RepoTree} {file : ArchiveFile}
    (hsha : file.blobSHA = gitBlobSHA sha1 file.content) :
    classify (existingBlobs t) file = none ↔
      t.get (uploadedEntry sha1 file).1 = some (uploadedEntry sha1 file).2 := by
  change _ ↔ t.get file.path = _
  unfold classify
  cases hget : (existingBlobs t).get file.path with
  | none =>
    refine iff_of_false (by simp) fun htree => ?_
    have := existing_get.mpr ⟨htree, rfl⟩
    rw [hget] at this
    cases this
  | some old =>
    obtain ⟨htree, hblob⟩ := existing_get.mp hget
    simp only [hblob, if_true, htree, Option.some.injEq, uploadedEntry, ← hsha]
    constructor
    · intro hnone
      split at hnone
      · rename_i hsame
        rw [← hsame.1, ← hsame.2, ← hblob]
      · cases hnone
    · rintro rfl
      rw [if_pos ⟨rfl, rfl⟩]

/-- What is uploaded for the change of a file, if it has one. -/
theorem changeOf_entry {t : RepoTree} {files : List ArchiveFile} (hacc : Accepted sha1 files)
    {file : ArchiveFile} (hf : file ∈ files) :
    (changeOf (existingBlobs t) file).bind (entryFor sha1 files) =
      if t.get (uploadedEntry sha1 file).1 ≠ some (uploadedEntry sha1 file).2 then
        some (uploadedEntry sha1 file)
      else none := by
  have hiff := classify_eq_none (t := t) (hacc.hashed file hf).2
  unfold changeOf
  cases hstatus : classify (existingBlobs t) file with
  | none =>
    rw [if_neg (not_not.mpr (hiff.mp hstatus))]
    rfl
  | some status =>
    rw [if_pos fun htree => by rw [hiff.mpr htree] at hstatus; cases hstatus]
    simp only [Option.map_some, Option.bind_some, entryFor, hacc.find_path hf]

/-- The changes of a preview are those of the files the tree does not have. -/
theorem entries_perm {t : RepoTree} {st : Extracted} (hacc : Accepted sha1 st.files)
    (id session : String) (now : Nat) (head : κ) :
    ((previewOf id session now head t st).plan.changes.filterMap (entryFor sha1 st.files)).Perm
      ((st.files.map (uploadedEntry sha1)).filter fun e => t.get e.1 ≠ some e.2) := by
  have hsorted : (previewOf id session now head t st).plan.changes.Perm
      (st.files.filterMap (changeOf (existingBlobs t))) := List.mergeSort_perm _ _
  have hsame : (st.files.filterMap (changeOf (existingBlobs t))).filterMap
        (entryFor sha1 st.files) =
      (st.files.map (uploadedEntry sha1)).filter fun e => t.get e.1 ≠ some e.2 := by
    rw [List.filterMap_filterMap, ← List.filterMap_eq_filter, List.filterMap_map]
    refine List.filterMap_congr fun file hf => ?_
    rw [changeOf_entry hacc hf]
    by_cases htree : t.get (uploadedEntry sha1 file).1 = some (uploadedEntry sha1 file).2
    · rw [if_neg (not_not.mpr htree)]
      simp [Option.guard, htree]
    · rw [if_pos htree]
      simp [Option.guard, htree]
  exact hsame ▸ hsorted.filterMap _

/-! ## Runs -/

/-- A plan that `Prepare` has made of an archive it accepted and the branch it read. -/
def Prepared (sha1 : List UInt8 → String) (git : Git κ) (state : ImportPlanState κ) : Prop :=
  ∃ written archive st id session now head,
    extractGitHubArchive sha1 written archive = .ok st ∧
    state = previewOf id session now head (git.tree head) st

/-- The entries for all the changes of a plan. -/
def planEntries (sha1 : List UInt8 → String) (state : ImportPlanState κ) :
    List (List String × GitTreeEntry) :=
  state.plan.changes.filterMap (entryFor sha1 state.files)

/-- The tree a plan is committed as. -/
def planTree (sha1 : List UInt8 → String) (state : ImportPlanState κ) : RepoTree :=
  createTree state.treeSHA (planEntries sha1 state)

/-- Along `Commit`: the plan is prepared, what is uploaded and what is still to be uploaded make
up the entries of the plan, and the tree created from them is the one committed. -/
def PhaseOk (sha1 : List UInt8 → String) (git : Git κ) : Phase κ → Prop
  | .fetched st _ => ∃ written archive, extractGitHubArchive sha1 written archive = .ok st
  | .checking state _ => Prepared sha1 git state
  | .uploading state _ todo entries => Prepared sha1 git state ∧
      entries ++ todo.filterMap (entryFor sha1 state.files) = planEntries sha1 state
  | .treed state _ newTree => Prepared sha1 git state ∧ newTree = planTree sha1 state
  | .committed state c | .succeeded state c => Prepared sha1 git state ∧
      git.tree c = planTree sha1 state
  | _ => True

structure Inv (sha1 : List UInt8 → String) (git : Git κ) (s : State κ) : Prop where
  plans : ∀ state ∈ s.plans, Prepared sha1 git state
  phases : ∀ i, PhaseOk sha1 git (s.thread i)

theorem inv_start (head : κ) : Inv sha1 git (start head) where
  plans := fun _ h => absurd h List.not_mem_nil
  phases := fun _ => trivial

theorem Inv.move {i : Nat} {p : Phase κ} (h : Inv sha1 git s) (hp : PhaseOk sha1 git p) :
    Inv sha1 git (s.move i p) := by
  refine ⟨h.plans, fun j => ?_⟩
  by_cases hji : j = i
  · subst hji
    rw [State.move_self]
    exact hp
  · rw [State.move_ne s p hji]
    exact h.phases j

/-- One step of `Prepare` or `Commit`. -/
theorem Inv.go {i : Nat} {p : Phase κ} (h : Inv sha1 git s)
    (hg : Goes sha1 git s (s.thread i) p) : Inv sha1 git (s.move i p) := by
  have hi := h.phases i
  refine h.move ?_
  generalize s.thread i = q at hg hi
  cases hg with
  | failed _ => trivial
  | fetched hextract => exact ⟨_, _, hextract⟩
  | admitted hmem => exact h.plans _ hmem
  | checked _ => exact ⟨hi, rfl⟩
  | @uploaded state message change todo entries file hfile =>
    refine ⟨hi.1, ?_⟩
    have hentry : entryFor sha1 state.files change = some (uploadedEntry sha1 file) := by
      rw [entryFor, hfile]
      rfl
    rw [← hi.2, List.append_assoc, List.filterMap_cons_some hentry]
    rfl
  | treed =>
    refine ⟨hi.1, ?_⟩
    rw [planTree, ← hi.2, List.filterMap_nil, List.append_nil]
  | created => exact ⟨hi.1, (git.tree_create ..).trans hi.2⟩

theorem inv_step [DecidableEq κ] (hi : Inv sha1 git s) (h : step sha1 git s a = some t) :
    Inv sha1 git t := by
  have hkept : ∀ id, ∀ state ∈ s.plans.filter (fun p => !(p.plan.id == id)),
      Prepared sha1 git state := fun id state hmem => hi.plans state (List.mem_filter.mp hmem).1
  cases did_of_step h with
  | went hgoes => exact hi.go hgoes
  | pushed => exact ⟨hi.plans, hi.phases⟩
  | @stored i id session now st head hphase =>
    have hfetched := hi.phases i
    rw [hphase] at hfetched
    obtain ⟨written, archive, hextract⟩ := hfetched
    refine Inv.move (s := { s with plans := _ }) ⟨?_, hi.phases⟩ trivial
    intro state hmem
    rcases List.mem_cons.mp hmem with rfl | hmem
    · exact ⟨written, archive, _, _, _, _, _, hextract, rfl⟩
    · exact hkept _ state hmem
  | @updated i state c hphase =>
    have hcommitted := hi.phases i
    rw [hphase] at hcommitted
    exact Inv.move (s := { s with head := _, plans := _, moves := _ })
      ⟨hkept _, hi.phases⟩ hcommitted
  | forgot => exact ⟨hkept _, hi.phases⟩

/-! ## The paths that are sent -/

/-- The path is text. -/
def IsText (path : List String) : Prop := sentPath path = path

instance : DecidablePred IsText := fun path => inferInstanceAs (Decidable (sentPath path = path))

/-- So are the paths without a byte that belongs to no character. -/
theorem isText_of_chars {path : List String}
    (h : ∀ part ∈ path, ∀ c ∈ part.toList, RawText.isByteChar c = false) : IsText path :=
  (List.map_congr_left fun part hpart => RawText.marshalled_text (h part hpart)).trans
    (List.map_id path)

theorem isText_sentPath (path : List String) : IsText (sentPath path) := by
  rw [IsText, sentPath, sentPath, List.map_map]
  exact List.map_congr_left fun part _ => RawText.marshalled_marshalled part

/-- Entries at paths that are text are put where they belong. -/
theorem createTree_of_isText {base : RepoTree} {entries : List (List String × GitTreeEntry)}
    (h : ∀ e ∈ entries, IsText e.1) : createTree base entries = base.putAll entries := by
  have hsame : entries.map (fun e => (sentPath e.1, e.2)) = entries.map id :=
    List.map_congr_left fun e he => Prod.ext (h e he) rfl
  rw [createTree, hsame, List.map_id]

/-- Nothing is put at a path that is not text. -/
theorem get_createTree_of_not_isText {base : RepoTree} {entries : List (List String × GitTreeEntry)}
    {path : List String} {v : GitTreeEntry} (hpath : ¬ IsText path)
    (h : (createTree base entries).get path = some v) : base.get path = some v := by
  rcases Tree.of_mem_putAll (Tree.get_eq_some.mp h) with hmem | hmem
  · obtain ⟨e, -, he⟩ := List.mem_map.mp hmem
    have hsent : sentPath e.1 = path := congrArg Prod.fst he
    exact absurd (hsent ▸ isText_sentPath e.1) hpath
  · exact Tree.get_eq_some.mpr hmem

def notes : List String × GitTreeEntry := (["data", "notes.txt"], ⟨"100644", .blob, "sha-of-notes"⟩)

def withNotes : Linear := [(⟨[notes], List.pairwise_singleton ..⟩, "init", 0)]

def archiveOf (name : String) : List ZipFile := [⟨name, false, false, 420, 2, some [72, 105]⟩]

/-- An archive of one file is previewed and committed, undisturbed. -/
def importOf (name : String) : List (Act Linear) :=
  [.prepare 0 100 (some (archiveOf name)), .store 0 "plan" "session" 0,
    .commit 1 "session" "plan" "import" "token" 1, .check 1 true, .createBlob 1 true,
    .createTree 1 true, .createCommit 1 true 7, .updateBranch 1 true]

/-- The trees before and after an import that has succeeded, and the paths of the archive. -/
structure Imported where
  paths : List (List String)
  before : RepoTree
  after : RepoTree

def imported (name : String) : Option Imported :=
  (run (step (fun _ => "") linear) (start withNotes) (importOf name)).bind fun s =>
    (outcome s 1).map fun r =>
      ⟨r.1.files.map (·.path), linear.tree r.1.plan.headSHA, linear.tree r.2⟩

theorem imported_eq_some {name : String} {found : Imported} (h : imported name = some found) : ∃ s,
    run (step (fun _ => "") linear) (start withNotes) (importOf name) = some s ∧
    ∃ state c, s.thread 1 = .succeeded state c ∧ state.files.map (·.path) = found.paths ∧
      linear.tree state.plan.headSHA = found.before ∧ linear.tree c = found.after := by
  obtain ⟨s, hs, h⟩ := Option.bind_eq_some_iff.mp h
  obtain ⟨⟨state, c⟩, houtcome, rfl⟩ := Option.map_eq_some_iff.mp h
  exact ⟨s, hs, state, c, succeeded_of_outcome houtcome, rfl, rfl, rfl⟩

/-- A name in GBK. -/
def gbkName : String := RawText.raw [0xb2, 0xe2]

end LukePanel.GithubHelper.ImportOverlay
