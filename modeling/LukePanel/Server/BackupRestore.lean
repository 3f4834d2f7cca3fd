import LukePanel.Server.PanelArchive
import LukePanel.Server.RestoreInstall

/-! # Restoring a panel backup

What `extractPanelBackupArchive` makes of an archive that the panel has written, and what
`installRestoredData` and its commit make of that in a target panel. -/
namespace LukePanel.Server.BackupRestore
open LukePanel.Library.Machine LukePanel.Library.SlashPath LukePanel.Library.FileTree
open LukePanel.Library.PathTree LukePanel.Server.PanelBackup LukePanel.Server.PanelArchive

/-! ## Archives the extraction can read -/

def totalSize (archive : List ArchiveEntry) : ℕ :=
  archive.foldr (fun e n => e.body.length + n) 0

theorem totalSize_append (archive more : List ArchiveEntry) :
    totalSize (archive ++ more) = totalSize archive + totalSize more := by
  induction archive with
  | nil => simp [totalSize]
  | cons e rest ih =>
    have hcons : ∀ es, totalSize (e :: es) = e.body.length + totalSize es := fun _ => rfl
    rw [List.cons_append, hcons, hcons, ih, Nat.add_assoc]

theorem body_le_totalSize {archive : List ArchiveEntry} {e : ArchiveEntry} (h : e ∈ archive) :
    e.body.length ≤ totalSize archive := by
  obtain ⟨before, after, rfl⟩ := List.append_of_mem h
  rw [totalSize_append]
  have : totalSize (e :: after) = e.body.length + totalSize after := rfl
  omega

/-- The limits of the extraction. -/
structure WithinLimits (archive : List ArchiveEntry) : Prop where
  files : archive.length ≤ maxPanelBackupFiles
  bytes : (totalSize archive : Int) ≤ maxPanelBackupBytes.toInt

structure Valid (archive : List ArchiveEntry) : Prop where
  named : ∀ e ∈ archive, e.parts ≠ [] ∧ ∀ part ∈ e.parts, FileName part
  allowed : ∀ e ∈ archive, allowedPanelBackupEntry e.parts = true
  compatible : Compatible (archive.map ArchiveEntry.key)
  sizes : ∀ e ∈ archive, (e.body.length : Int) ≤ maxPanelBackupBytes.toInt

theorem header_name (e : ArchiveEntry) :
    e.header.name = LukePanel.Library.GoStrings.join '/' e.parts := by
  unfold ArchiveEntry.header
  cases e.content <;> rfl

theorem header_size (e : ArchiveEntry) : e.header.size.toInt = e.body.length := by
  unfold ArchiveEntry.header ArchiveEntry.body
  cases e.content with
  | none => rfl
  | some content => exact content.size_toInt

theorem header_typeflag (e : ArchiveEntry) :
    e.header.typeflag = .dir ∧ e.content = none ∨
      e.header.typeflag = .reg ∧ ∃ content, e.content = some content := by
  unfold ArchiveEntry.header
  cases e.content with
  | none => exact Or.inl ⟨rfl, rfl⟩
  | some content => exact Or.inr ⟨rfl, content, rfl⟩

/-- The total after one more entry does not wrap. -/
theorem total_add_size {total : Int64} {size : Int64} {done n : ℕ} (htotal : total.toInt = done)
    (hsize : size.toInt = n) (hdone : (done : Int) ≤ maxPanelBackupBytes.toInt)
    (hn : (n : Int) ≤ maxPanelBackupBytes.toInt) : (total + size).toInt = (done + n : ℕ) := by
  rw [maxPanelBackupBytes_toInt] at hdone hn
  rw [Int64.toInt_add, htotal, hsize]
  exact Int.bmod_eq_of_le_mul_two (by omega) (by omega)

/-- The header of an entry is refused for the limits alone. -/
theorem header_entry {e : ArchiveEntry} {s : State} {rest : Stream}
    (hnamed : e.parts ≠ [] ∧ ∀ part ∈ e.parts, FileName part)
    (hallowed : allowedPanelBackupEntry e.parts = true) :
    s.header e.header e.body false rest =
      if maxPanelBackupFiles < s.files + 1 ∨ maxPanelBackupBytes < s.total + e.header.size then
        { s with files := s.files + 1, total := s.total + e.header.size }.fail
          "备份内容超过安全限制"
      else
        { s with
          stream := rest
          files := s.files + 1
          total := s.total + e.header.size
          declared := s.declared + e.header.size.toInt.toNat
          phase := .create e.header e.parts e.body false } := by
  have hname : clean e.header.name = ⟨false, e.parts⟩ := by
    rw [header_name]
    exact clean_join hnamed.1 hnamed.2
  have hclimbs : CleanPath.climbs ⟨false, e.parts⟩ = false := by
    cases hparts : e.parts with
    | nil => rfl
    | cons part parts =>
      have hpart := (hnamed.2 part (hparts ▸ List.mem_cons_self)).1.2.2
      simp [CleanPath.climbs, hpart]
  have hsize : ¬ e.header.size < 0 := by
    rw [Int64.lt_iff_toInt_lt, header_size]
    exact Int.not_lt.mpr (Int.natCast_nonneg _)
  have hlink : ¬ (e.header.typeflag = .symlink ∨ e.header.typeflag = .link) := by
    rcases header_typeflag e with ⟨h, _⟩ | ⟨h, _⟩ <;> simp [h]
  unfold State.header
  simp only [hname, hnamed.1, hclimbs, hlink, hallowed, hsize, if_false, Bool.false_eq_true,
    or_self, Bool.not_true]
  split
  · rfl
  · rcases header_typeflag e with ⟨h, _⟩ | ⟨h, _⟩ <;> simp only [h]

/-! ## What the destination holds -/

/-- The directory that is made for an entry. -/
def directory (e : ArchiveEntry) : List String :=
  match e.content with
  | none => e.parts
  | some _ => e.parts.dropLast

theorem directory_above (e : ArchiveEntry) : directory e <+: e.parts := by
  unfold directory
  cases e.content with
  | none => exact List.prefix_refl _
  | some content => exact List.dropLast_prefix _

/-- The destination holds the entries, and the directories they are in. -/
structure Holds (d : Destination) (done : List ArchiveEntry) : Prop where
  files : ∀ path bytes, (path, bytes) ∈ d.files ↔ ∃ e ∈ done, ∃ content,
    e.content = some content ∧ e.parts = path ∧ content.bytes = bytes
  dirs : ∀ path, path ∈ d.dirs ↔ ∃ e ∈ done, path <+: directory e

theorem Holds.empty : Holds ⟨[], []⟩ [] := by
  constructor
  · intro path bytes
    simp
  · intro path
    simp

theorem isFile_iff {d : Destination} {path : List String} :
    d.isFile path = true ↔ ∃ bytes, (path, bytes) ∈ d.files := by
  unfold Destination.isFile
  rw [List.any_eq_true]
  constructor
  · rintro ⟨f, hf, heq⟩
    exact ⟨f.2, (eq_of_beq heq) ▸ hf⟩
  · rintro ⟨bytes, hf⟩
    exact ⟨_, hf, beq_self_eq_true _⟩

variable {d : Destination} {archive done rest : List ArchiveEntry} {e : ArchiveEntry}

theorem Holds.not_file (h : Holds d done) {path : List String}
    (hfree : ∀ f ∈ done, f.content.isSome = true → ¬ f.parts <+: path) {above : List String}
    (habove : above <+: path) : d.isFile above = false := by
  rw [Bool.eq_false_iff]
  intro hfile
  obtain ⟨bytes, hmem⟩ := isFile_iff.mp hfile
  obtain ⟨f, hf, content, hcontent, rfl, _⟩ := (h.files above bytes).mp hmem
  exact hfree f hf (by rw [hcontent]; rfl) habove

/-- `MkdirAll` succeeds where no file stands at or above the path. -/
theorem Holds.mkdirAll (h : Holds d done) (path : List String)
    (hfree : ∀ f ∈ done, f.content.isSome = true → ¬ f.parts <+: path) :
    ∃ d', d.mkdirAll path = some d' ∧ d'.files = d.files ∧
      ∀ p, p ∈ d'.dirs ↔ p <+: path ∨ p ∈ d.dirs := by
  have hclear : path.inits.any d.isFile = false := by
    rw [List.any_eq_false]
    intro above habove
    rw [h.not_file hfree ((List.mem_inits above path).mp habove)]
    exact Bool.false_ne_true
  refine ⟨{ d with dirs := path.inits.filter (· ∉ d.dirs) ++ d.dirs }, ?_, rfl, fun p => ?_⟩
  · unfold Destination.mkdirAll
    simp only [hclear, Bool.false_eq_true, if_false]
  · simp only [List.mem_append, List.mem_filter, List.mem_inits, decide_eq_true_eq]
    tauto

/-- The destination holds one entry more, as a file or without content. -/
theorem Holds.concat {d' : Destination} (h : Holds d done)
    (hfiles : ∀ path bytes, (path, bytes) ∈ d'.files ↔
      (∃ content, e.content = some content ∧ e.parts = path ∧ content.bytes = bytes) ∨
        (path, bytes) ∈ d.files)
    (hdirs : ∀ path, path ∈ d'.dirs ↔ path <+: directory e ∨ path ∈ d.dirs) :
    Holds d' (done ++ [e]) := by
  have hconcat : ∀ p : ArchiveEntry → Prop, (∃ f ∈ done ++ [e], p f) ↔ p e ∨ ∃ f ∈ done, p f := by
    intro p
    simp only [List.mem_append, List.mem_singleton, or_and_right, exists_or, exists_eq_left,
      or_comm]
  constructor
  · intro path bytes
    rw [hfiles, hconcat, h.files]
  · intro path
    rw [hdirs, hconcat, h.dirs]

/-- A directory entry is made, with the directories above it. -/
theorem Holds.addDir (h : Holds d done) (hdir : e.content = none)
    (hfree : ∀ f ∈ done, f.content.isSome = true → ¬ f.parts <+: e.parts) :
    ∃ d', d.mkdirAll e.parts = some d' ∧ Holds d' (done ++ [e]) := by
  obtain ⟨d', hmkdir, hfiles, hdirs⟩ := h.mkdirAll e.parts hfree
  have hdirectory : directory e = e.parts := by
    unfold directory
    rw [hdir]
  refine ⟨d', hmkdir, h.concat (fun path bytes => ?_) fun path => ?_⟩
  · rw [hfiles, hdir]
    simp
  · rw [hdirs, hdirectory]

/-- A file is opened below the directories above it; with its content written the destination
holds it. -/
theorem Holds.addFile (h : Holds d done) {content : Content} (hfile : e.content = some content)
    (hne : e.parts ≠ [])
    (hfree : ∀ f ∈ done, f.content.isSome = true → ¬ f.parts <+: e.parts)
    (hbelow : ∀ f ∈ done, ¬ e.parts <+: f.parts) :
    ∃ d' d'', d.mkdirAll e.parts.dropLast = some d' ∧ d'.openExcl e.parts = some d'' ∧
      d''.files = (e.parts, []) :: d.files ∧
      Holds { d'' with files := (e.parts, content.bytes) :: d.files } (done ++ [e]) := by
  have hdirectory : directory e = e.parts.dropLast := by
    unfold directory
    rw [hfile]
  have hnotfile : d.isFile e.parts = false := h.not_file hfree (List.prefix_refl _)
  obtain ⟨d', hmkdir, hfiles, hdirs⟩ := h.mkdirAll e.parts.dropLast
    fun f hf hsome hpre => hfree f hf hsome (hpre.trans (List.dropLast_prefix _))
  have hnotfile' : d'.isFile e.parts = false := by
    unfold Destination.isFile at hnotfile ⊢
    rw [hfiles]
    exact hnotfile
  have hnotdir : e.parts ∉ d'.dirs := by
    rw [hdirs, h.dirs]
    rintro (hpre | ⟨f, hf, hpre⟩)
    · have hlen := hpre.length_le
      rw [List.length_dropLast] at hlen
      exact hne (List.length_eq_zero_iff.mp (by omega))
    · exact hbelow f hf (hpre.trans (directory_above f))
  refine ⟨d', { d' with files := (e.parts, []) :: d'.files }, hmkdir, ?_, by rw [hfiles], ?_⟩
  · unfold Destination.openExcl
    rw [if_neg (not_or.mpr ⟨by rw [hnotfile']; exact Bool.false_ne_true, hnotdir⟩)]
  · refine h.concat (fun path bytes => ?_) fun path => ?_
    · rw [List.mem_cons, Prod.mk.injEq, hfile]
      refine or_congr_left ⟨?_, ?_⟩
      · rintro ⟨rfl, rfl⟩
        exact ⟨content, rfl, rfl, rfl⟩
      · rintro ⟨_, hcontent, hparts, hbytes⟩
        obtain rfl := Option.some.inj hcontent
        exact ⟨hparts.symm, hbytes.symm⟩
    · simp only [hdirs, hdirectory]

/-! ## Runs without a failing file operation -/

def Faultless (_ : State) : Act → Prop
  | .create io => io = .ok
  | .close ok => ok = true
  | _ => True

/-- The entries `done` have been counted, and the rest is still to be read. -/
structure Counted (s : State) (archive done rest : List ArchiveEntry) : Prop where
  split : archive = done ++ rest
  stream : s.stream = stream rest
  files : s.files = done.length
  total : s.total.toInt = totalSize done
  within : WithinLimits done

/-- What an entry in hand does to the destination counts nothing. -/
theorem Counted.same {s s' : State} (h : Counted s archive done rest)
    (hstream : s'.stream = s.stream) (hfiles : s'.files = s.files) (htotal : s'.total = s.total) :
    Counted s' archive done rest :=
  ⟨h.split, hstream.trans h.stream, hfiles.trans h.files, htotal ▸ h.total, h.within⟩

/-- Where a run without a failing operation can be. -/
inductive Good (archive : List ArchiveEntry) (s : State) : Prop
  | next {done rest : List ArchiveEntry} (phase : s.phase = .next)
      (counted : Counted s archive done rest) (holds : Holds s.destination done)
  | create {done rest : List ArchiveEntry} {e : ArchiveEntry}
      (phase : s.phase = .create e.header e.parts e.body false)
      (counted : Counted s archive (done ++ [e]) rest) (holds : Holds s.destination done)
  | copy {done rest : List ArchiveEntry} {path : List String} {written remaining : List UInt8}
      {others : List (List String × List UInt8)} (phase : s.phase = .copy remaining false)
      (counted : Counted s archive done rest)
      (files : s.destination.files = (path, written) :: others)
      (holds : Holds { s.destination with files := (path, written ++ remaining) :: others } done)
  | accepted (phase : s.phase = .done none) (within : WithinLimits archive)
      (holds : Holds s.destination archive)
  | refused {message : String} (phase : s.phase = .done (some message))
      (beyond : ¬ WithinLimits archive)

theorem counted_start (archive : List ArchiveEntry) :
    Counted (start (stream archive)) archive [] archive :=
  ⟨rfl, rfl, rfl, rfl, Nat.zero_le _, by decide⟩

theorem good_start (archive : List ArchiveEntry) : Good archive (start (stream archive)) :=
  .next rfl (counted_start archive) Holds.empty

/-- The header of the next entry is refused if the archive is beyond the limits, or counted. -/
theorem read_header {s : State} (hvalid : Valid archive)
    (hcounted : Counted s archive done (e :: rest)) :
    (∃ message, (s.header e.header e.body false (stream rest)).phase = .done (some message) ∧
      ¬ WithinLimits archive) ∨
    ((s.header e.header e.body false (stream rest)).phase =
        .create e.header e.parts e.body false ∧
      (s.header e.header e.body false (stream rest)).destination = s.destination ∧
      Counted (s.header e.header e.body false (stream rest)) archive (done ++ [e]) rest) := by
  have he : e ∈ archive := hcounted.split ▸ List.mem_append_right _ List.mem_cons_self
  have htotal := total_add_size hcounted.total (header_size e) hcounted.within.bytes
    (hvalid.sizes e he)
  have hlen : (done ++ [e]).length = s.files + 1 := by
    rw [hcounted.files, List.length_append, List.length_singleton]
  have hsum : totalSize (done ++ [e]) = totalSize done + e.body.length := by
    rw [totalSize_append]
    rfl
  have hsplit : archive = (done ++ [e]) ++ rest := by
    rw [hcounted.split, List.append_assoc]
    rfl
  rw [header_entry (hvalid.named e he) (hvalid.allowed e he)]
  split
  · rename_i hover
    refine Or.inl ⟨_, rfl, fun hwithin => ?_⟩
    have hfiles := hwithin.files
    have hbytes := hwithin.bytes
    rw [hsplit] at hfiles hbytes
    rw [List.length_append, hlen] at hfiles
    rw [totalSize_append, hsum] at hbytes
    rw [Int64.lt_iff_toInt_lt, htotal] at hover
    omega
  · rename_i hwithin
    rw [Int64.lt_iff_toInt_lt, htotal] at hwithin
    refine Or.inr ⟨rfl, rfl, hsplit, rfl, hlen.symm, ?_, ?_, ?_⟩
    · rw [hsum]
      exact htotal
    · omega
    · rw [hsum]
      omega

theorem good_header {s : State} (hvalid : Valid archive)
    (hcounted : Counted s archive done (e :: rest)) (hholds : Holds s.destination done) :
    Good archive (s.header e.header e.body false (stream rest)) := by
  rcases read_header hvalid hcounted with ⟨_, hphase, hbeyond⟩ | ⟨hphase, hdest, hcounted'⟩
  · exact .refused hphase hbeyond
  · exact .create hphase hcounted' (by rw [hdest]; exact hholds)

/-- No file of the archive stands at or above another entry. -/
theorem Valid.free (hvalid : Valid archive) (hsplit : archive = (done ++ [e]) ++ rest) :
    (∀ f ∈ done, f.content.isSome = true → ¬ f.parts <+: e.parts) ∧
      (e.content.isSome = true → ∀ f ∈ done, ¬ e.parts <+: f.parts) := by
  have hcompatible := hvalid.compatible
  rw [hsplit, List.map_append] at hcompatible
  have hdone := (List.pairwise_append.mp hcompatible).1
  rw [List.map_append] at hdone
  have hpairs := (List.pairwise_append.mp hdone).2.2
  constructor
  · intro f hf
    exact (hpairs f.key (List.mem_map_of_mem hf) e.key (List.mem_singleton_self _)).1
  · intro hsome f hf
    exact (hpairs f.key (List.mem_map_of_mem hf) e.key (List.mem_singleton_self _)).2 hsome

/-- Creating an entry makes a directory, or opens a file whose content makes the destination
hold it. -/
theorem create_entry {s : State} (hvalid : Valid archive)
    (hcounted : Counted s archive (done ++ [e]) rest) (hholds : Holds s.destination done) :
    (∃ d, s.create e.header e.parts e.body false .ok = s.created d .next ∧
      Holds d (done ++ [e])) ∨
    (∃ d, s.create e.header e.parts e.body false .ok = s.created d (.copy e.body false) ∧
      d.files = (e.parts, []) :: s.destination.files ∧
      Holds { d with files := (e.parts, e.body) :: s.destination.files } (done ++ [e])) := by
  obtain ⟨hfree, hbelow⟩ := hvalid.free hcounted.split
  rcases header_typeflag e with ⟨hdir, hnone⟩ | ⟨hreg, content, hcontent⟩
  · obtain ⟨d, hmkdir, hadded⟩ := hholds.addDir hnone hfree
    refine Or.inl ⟨d, ?_, hadded⟩
    unfold State.create
    simp only [hdir, hmkdir]
  · have he : e ∈ archive := by
      rw [hcounted.split]
      exact List.mem_append_left _ (List.mem_append_right _ (List.mem_singleton_self e))
    have hbody : e.body = content.bytes := by
      unfold ArchiveEntry.body
      rw [hcontent]
    obtain ⟨d', d'', hmkdir, hopen, hfiles, hadded⟩ :=
      hholds.addFile hcontent (hvalid.named e he).1 hfree (hbelow (by rw [hcontent]; rfl))
    refine Or.inr ⟨d'', ?_, hfiles, ?_⟩
    · unfold State.create
      simp only [hreg, hmkdir, hopen]
    · rw [hbody]
      exact hadded

theorem good_create {s : State} (hvalid : Valid archive)
    (hcounted : Counted s archive (done ++ [e]) rest) (hholds : Holds s.destination done) :
    Good archive (s.create e.header e.parts e.body false .ok) := by
  rcases create_entry hvalid hcounted hholds with ⟨d, heq, hadded⟩ | ⟨d, heq, hfiles, hadded⟩
  · rw [heq]
    exact .next rfl (hcounted.same rfl rfl rfl) hadded
  · rw [heq]
    exact .copy rfl (hcounted.same rfl rfl rfl) hfiles hadded

/-- A step without a failing operation. -/
theorem good_step {s t : State} {a : Act} (hvalid : Valid archive) (h : Good archive s)
    (hfault : Faultless s a) (hstep : step s a = some t) : Good archive t := by
  cases h with
  | @next done rest hphase hcounted hholds =>
    cases a with
    | next =>
      simp only [step, hphase, hcounted.stream] at hstep
      cases rest with
      | nil =>
        obtain rfl := Option.some.inj hstep
        have hall : archive = done := by rw [hcounted.split, List.append_nil]
        exact .accepted rfl (hall ▸ hcounted.within) (hall ▸ hholds)
      | cons e rest =>
        obtain rfl := Option.some.inj hstep
        exact good_header hvalid hcounted hholds
    | create io | write n | close ok =>
      simp only [step, hphase] at hstep
      cases hstep
  | @create done rest e hphase hcounted hholds =>
    cases a with
    | create io =>
      obtain rfl : io = .ok := hfault
      simp only [step, hphase] at hstep
      obtain rfl := Option.some.inj hstep
      exact good_create hvalid hcounted hholds
    | next | write n | close ok =>
      simp only [step, hphase] at hstep
      cases hstep
  | @copy done rest path written remaining others hphase hcounted hfiles hholds =>
    cases a with
    | write n =>
      simp only [step, hphase] at hstep
      obtain rfl := Option.some.inj hstep
      have hwritten : (s.destination.write (remaining.take n)).files =
          (path, written ++ remaining.take n) :: others := by
        simp only [Destination.write, hfiles]
      refine .copy rfl (hcounted.same rfl rfl rfl) hwritten ?_
      rw [List.append_assoc, List.take_append_drop]
      simp only [Destination.write, hfiles]
      exact hholds
    | close ok =>
      obtain rfl : ok = true := hfault
      simp only [step, hphase, Bool.true_and] at hstep
      cases remaining with
      | cons b more => cases hstep
      | nil =>
        obtain rfl := Option.some.inj hstep
        refine .next rfl (hcounted.same rfl rfl rfl) ?_
        rw [List.append_nil, ← hfiles] at hholds
        exact hholds
    | next | create io =>
      simp only [step, hphase] at hstep
      cases hstep
  | accepted hphase | refused hphase =>
    simp only [step, hphase] at hstep
    cases a <;> cases hstep

/-- A run without a failing operation comes to an end. -/
theorem run_returns (hvalid : Valid archive) (rest : List ArchiveEntry) :
    ∀ {s : State} {done : List ArchiveEntry}, s.phase = .next → Counted s archive done rest →
      Holds s.destination done → ∃ t, Reaches step Faultless s t ∧ t.phase.returned = true := by
  induction rest with
  | nil =>
    intro s done hphase hcounted _
    have hnext : step s .next = some { s with phase := .done none } := by
      simp only [step, hphase, hcounted.stream, stream]
    exact ⟨_, Reaches.refl.tail (a := .next) trivial hnext, rfl⟩
  | cons e rest ih =>
    intro s done hphase hcounted hholds
    have hnext : step s .next = some (s.header e.header e.body false (stream rest)) := by
      simp only [step, hphase, hcounted.stream, stream]
    have hread : Reaches step Faultless s (s.header e.header e.body false (stream rest)) :=
      Reaches.refl.tail (a := .next) trivial hnext
    rcases read_header hvalid hcounted with ⟨_, hdone, _⟩ | ⟨hcreate, hdest, hcounted'⟩
    · exact ⟨_, hread, by rw [hdone]; rfl⟩
    · revert hread hcreate hdest hcounted'
      generalize s.header e.header e.body false (stream rest) = u
      intro hread hcreate hdest hcounted'
      have hmade : step u (.create .ok) = some (u.create e.header e.parts e.body false .ok) := by
        simp only [step, hcreate]
      have hcreated : Reaches step Faultless s (u.create e.header e.parts e.body false .ok) :=
        hread.tail (a := .create .ok) rfl hmade
      rcases create_entry hvalid hcounted' (hdest ▸ hholds) with
        ⟨d, heq, hadded⟩ | ⟨d, heq, hfiles, hadded⟩
      · rw [heq] at hcreated
        obtain ⟨t, ht, hreturned⟩ := ih (s := u.created d .next) rfl (hcounted'.same rfl rfl rfl) hadded
        exact ⟨t, hcreated.trans ht, hreturned⟩
      · -- the whole body is written at once, and the file closed
        rw [heq] at hcreated
        have hwrite : step (u.created d (.copy e.body false)) (.write e.body.length) =
            some { u.created d (.copy [] false) with
              destination := { d with files := (e.parts, e.body) :: u.destination.files } } := by
          simp only [step, State.created, Destination.write, hfiles, List.take_length,
            List.drop_length, List.nil_append]
        have hclose : step { u.created d (.copy [] false) with
              destination := { d with files := (e.parts, e.body) :: u.destination.files } }
            (.close true) = some { u.created d .next with
              destination := { d with files := (e.parts, e.body) :: u.destination.files } } := rfl
        obtain ⟨t, ht, hreturned⟩ := ih (s := { u.created d .next with
              destination := { d with files := (e.parts, e.body) :: u.destination.files } }) rfl
          (hcounted'.same rfl rfl rfl) hadded
        have hwritten := hcreated.tail (a := Act.write e.body.length) trivial hwrite
        have hclosed := hwritten.tail (a := Act.close true) rfl hclose
        exact ⟨t, hclosed.trans ht, hreturned⟩

/-- Every run of the extraction without a failing operation returns no error and a destination
with the property, and there is such a run. -/
def Accepted (archive : List ArchiveEntry) (P : Destination → Prop) : Prop :=
  (∀ t, Reaches step Faultless (start (stream archive)) t → t.phase.returned = true →
    t.phase = .done none ∧ P t.destination) ∧
  ∃ t, Reaches step Faultless (start (stream archive)) t ∧ t.phase.returned = true

theorem Accepted.mono {P Q : Destination → Prop} (h : Accepted archive P)
    (hPQ : ∀ d, P d → Q d) : Accepted archive Q := by
  refine ⟨fun t ht hreturned => ?_, h.2⟩
  obtain ⟨hphase, hP⟩ := h.1 t ht hreturned
  exact ⟨hphase, hPQ _ hP⟩

theorem good_reaches (hvalid : Valid archive) {t : State}
    (h : Reaches step Faultless (start (stream archive)) t) : Good archive t :=
  h.invariant (good_start archive) fun _ _ _ hgood hfault hs => good_step hvalid hgood hfault hs

theorem returned_run (hvalid : Valid archive) :
    ∃ t, Reaches step Faultless (start (stream archive)) t ∧ t.phase.returned = true :=
  run_returns hvalid archive rfl (counted_start archive) Holds.empty

/-- **The extraction accepts what is within its limits.** -/
theorem accepted_of_within (hvalid : Valid archive) (hwithin : WithinLimits archive) :
    Accepted archive fun d => Holds d archive := by
  refine ⟨fun t ht hreturned => ?_, returned_run hvalid⟩
  cases good_reaches hvalid ht with
  | next hphase | create hphase | copy hphase =>
    rw [hphase] at hreturned
    cases hreturned
  | accepted hphase _ hholds => exact ⟨hphase, hholds⟩
  | refused _ hbeyond => exact absurd hwithin hbeyond

theorem refused_of_beyond (hvalid : Valid archive) (hbeyond : ¬ WithinLimits archive)
    (P : Destination → Prop) : ¬ Accepted archive P := by
  rintro ⟨hall, t, ht, hreturned⟩
  have hdone := (hall t ht hreturned).1
  cases good_reaches hvalid ht with
  | next hphase | create hphase | copy hphase =>
    rw [hphase] at hdone
    cases hdone
  | accepted _ hwithin _ => exact hbeyond hwithin
  | refused hphase _ =>
    rw [hphase] at hdone
    cases hdone

end LukePanel.Server.BackupRestore
