import LukePanel.Files.VersionStore
import LukePanel.Library.Substrings

/-! # Whose versions are listed -/
namespace LukePanel.Files.VersionOwners
open LukePanel.Library.Attempt LukePanel.Library.FileSystem LukePanel.Library.Syscalls
open LukePanel.Library.GoStrings (contains hasSuffix)
open LukePanel.Library.SlashPath LukePanel.Library.Substrings
open LukePanel.Files.Paths LukePanel.Files.Versions LukePanel.Files.VersionStore
open Prog

variable {w : World} {n : Naming} {m : Manager}

/-! ## Names of versions -/

/-- The version was made by a backup of the file. -/
def CreatedBy (n : Naming) (path : Path) (id : String) : Prop := ∃ time, id = versionName n time path

/-- The name of a file holds the hash of another path where a version's name has one. -/
def Embeds (n : Naming) (path other : Path) : Prop :=
  (n.pathHash path).toList ++ ['-'] <+: (baseOf other).toList ∨
    '-' :: (n.pathHash path).toList ++ ['-'] <:+: (baseOf other).toList

theorem toList_versionName (time : Nat) (path : Path) :
    (versionName n time path).toList = (n.stamp time).toList ++ ('-' :: (n.pathHash path).toList ++
      ('-' :: ((baseOf path).toList ++ ".bak".toList))) := by
  simp [versionName, String.toList_append]

theorem hyphen_not_mem_stamp (time : Nat) : '-' ∉ (n.stamp time).toList := fun hmem =>
  absurd (List.all_eq_true.mp (n.stamp_chars time) _ hmem) (by decide)

theorem hyphen_not_mem_hash (path : Path) : '-' ∉ (n.pathHash path).toList := fun hmem =>
  absurd (List.all_eq_true.mp (n.hash_chars path) _ hmem) (by decide)

/-- A version's name tells which file it is of. -/
theorem hash_eq_of_versionName {time time' : Nat} {path other : Path}
    (h : versionName n time path = versionName n time' other) :
    n.pathHash path = n.pathHash other := by
  have hchars := congrArg String.toList h
  rw [toList_versionName, toList_versionName] at hchars
  obtain ⟨-, hrest⟩ := List.append_inj hchars ((n.stamp_length _).trans (n.stamp_length _).symm)
  rw [List.cons_append, List.cons_append] at hrest
  obtain ⟨hhash, -⟩ := List.append_inj (List.cons.inj hrest).2
    ((n.hash_length _).trans (n.hash_length _).symm)
  exact String.toList_inj.mp hhash

theorem toList_mark (path : Path) :
    (mark n path).toList = '-' :: ((n.pathHash path).toList ++ ['-']) := by
  simp [mark, String.toList_append]

/-- When a version is taken for one of another file. -/
theorem contains_versionName (time : Nat) {path other : Path}
    (hne : n.pathHash other ≠ n.pathHash path) :
    contains (versionName n time other) (mark n path) = true ↔ Embeds n path other := by
  have hdot : '-' ∉ ".bak".toList := by decide
  rw [contains, decide_eq_true_iff, toList_mark, toList_versionName,
    infix_append_iff (hyphen_not_mem_stamp time), List.cons_append, List.infix_cons_iff,
    infix_append_iff (hyphen_not_mem_hash other), List.infix_cons_iff]
  have hfirst : ¬ '-' :: ((n.pathHash path).toList ++ ['-']) <+:
      '-' :: ((n.pathHash other).toList ++ '-' :: ((baseOf other).toList ++ ".bak".toList)) := by
    intro hpre
    obtain ⟨more, hmore⟩ := (List.cons_prefix_cons.mp hpre).2
    rw [List.append_assoc] at hmore
    obtain ⟨hhash, -⟩ := List.append_inj hmore ((n.hash_length _).trans (n.hash_length _).symm)
    exact hne (String.toList_inj.mp hhash).symm
  rw [or_iff_right hfirst, List.cons_prefix_cons, and_iff_right rfl,
    concat_prefix_append_iff hdot, ← List.cons_append, concat_infix_append_iff hdot]
  rfl

theorem hasSuffix_versionName (time : Nat) (path : Path) :
    hasSuffix (versionName n time path) ".bak" = true := by
  rw [hasSuffix, List.isSuffixOf_iff_suffix, versionName, String.toList_append]
  exact List.suffix_append _ _

/-! ## Stores -/

/-- There is something other than a directory under a name in the directory of versions. -/
def Held (m : Manager) (h : Host) (name : String) : Prop :=
  ∃ l e, h.fs.follow (versionsDir m) = .ok l ∧ h.fs.entry (l ++ [name]) = some e ∧ e.isDir = false

/-- The stores that backups of some files lead to. Whatever else happens makes no entry in the
directory of versions. -/
inductive Store (n : Naming) (m : Manager) (files : Path → Prop) : Host → Prop
  | empty (h : Host) : (∀ name, ¬ Held m h name) → Store n m files h
  | backup (h : Host) (w : World) (path : Path) (info : Entry) : Store n m files h → files path →
      Store n m files (backup w n m path info h).2
  | other (h h' : Host) : Store n m files h → (∀ name, Held m h' name → Held m h name) →
      Store n m files h'

theorem Held.still {h h' : Host} {name : String} (hheld : Held m h' name) (hstill : h.Still h') :
    Held m h name := by
  rw [Held, ← hstill.1]
  exact hheld

/-- A directory that was just made holds nothing, and nothing else was changed. -/
theorem Held.prepared {h h' : Host} {name : String} (hheld : Held m h' name)
    (hprep : Prepared h h' (versionsDir m)) : Held m h name := by
  rcases hprep with hstill | ⟨top, hnew⟩
  · exact hheld.still hstill
  · obtain ⟨l, e, hl, he, hfile⟩ := hheld
    have hbelow := (hnew.follow named_versionsDir hl).trans (List.prefix_append l [name])
    rw [hnew.dirs _ e hbelow he] at hfile
    cases hfile

theorem Held.backed {h h' : Host} {path : Path} {name : String} (hheld : Held m h' name)
    (hbacked : Backed n m path h h') : Held m h name ∨ CreatedBy n path name := by
  rcases hbacked with hprep | ⟨h₁, l, time, hmade, hsaved⟩
  · exact .inl (hheld.prepared hprep)
  · obtain ⟨l', e, hl', he, hfile⟩ := hheld
    obtain rfl := hsaved.leads l' hl'
    rcases hsaved.kept name e he with hname | ⟨e', he', hun⟩
    · exact .inr ⟨time, hname⟩
    · have hheld₁ : Held m h₁ name :=
        ⟨l', e', hmade.leads, he', (isDir_of_untimed hun).symm ▸ hfile⟩
      exact .inl (hheld₁.prepared hmade.prepared)

/-- Every version in a store was created by a backup of one of the files. -/
theorem created_of_store {files : Path → Prop} {h : Host} {name : String}
    (hstore : Store n m files h) (hheld : Held m h name) :
    ∃ path, files path ∧ CreatedBy n path name := by
  induction hstore with
  | empty h hempty => exact absurd hheld (hempty name)
  | backup h w path info _ hpath ih =>
    have hbacked : Backed n m path h (backup w n m path info h).2 := by
      have hends := ends_def.mp (ends_backup (w := w) (n := n) (m := m) path info h)
      cases hr : (Versions.backup w n m path info h).1 with
      | ok a => exact hends.1 a hr
      | error err => exact hends.2 err hr
    rcases hheld.backed hbacked with hold | hcreated
    · exact ih hold
    · exact ⟨path, hpath, hcreated⟩
  | other h h' _ hkeeps ih => exact ih (hkeeps name hheld)

/-! ## What is listed and accepted -/

theorem ends_listed (path : Path) (names : List String) (h : Host) :
    Ends (listed w n m path names) h
      (fun vs h' => h.Still h' ∧ ∀ v ∈ vs, contains v.id (mark n path) = true ∧ Held m h v.id)
      fun _ _ => True := by
  induction names generalizing h with
  | nil => exact ends_pure.mpr ⟨⟨rfl, rfl⟩, nofun⟩
  | cons name rest ih =>
    rw [listed, ends_ite]
    refine ⟨fun _ => ih h, fun hmatch => ?_⟩
    obtain ⟨hcontains, -⟩ := not_or.mp hmatch
    rw [ends_bind, ends_result]
    refine ends_query (fun _ _ => ih h) fun info _ hinfo => ?_
    rw [ends_bind]
    refine (ih _).mono ?_ fun _ _ _ => trivial
    rintro vs h' ⟨hstill, hvs⟩
    refine ends_pure.mpr ⟨hstill, ?_⟩
    split
    · exact hvs
    · rename_i hdir
      refine List.forall_mem_cons.mpr ⟨⟨Bool.not_eq_false _ ▸ hcontains, ?_⟩, hvs⟩
      obtain ⟨k, hk, hentry⟩ := bind_eq_ok hinfo
      obtain ⟨l, hl, -, rfl⟩ := Fs.locate_concat_ok hk
      exact ⟨l, info, hl, entryAt_eq_ok hentry, Bool.eq_false_iff.mpr hdir⟩

theorem ends_listBackupsForResolved (path : Path) (h : Host) :
    Ends (listBackupsForResolved w n m path) h
      (fun vs _ => ∀ v ∈ vs, contains v.id (mark n path) = true ∧ Held m h v.id)
      fun _ _ => True := by
  rw [listBackupsForResolved, ends_bind, ends_result]
  refine ends_query (fun errno _ => ?_) fun names _ _ => ?_
  · exact ends_ite.mpr ⟨fun _ => ends_pure.mpr nofun, fun _ => trivial⟩
  · rw [ends_bind]
    refine (ends_listed path names _).mono ?_ fun _ _ _ => trivial
    rintro vs h' ⟨hstill, hvs⟩
    refine ends_pure.mpr fun v hv => ?_
    exact hvs v ((n.byNewest_perm vs).mem_iff.mp (List.mem_of_mem_take hv))

theorem named_of_hasSuffix {id : String} (h : hasSuffix id ".bak" = true) : Named id := by
  obtain ⟨front, hfront⟩ := List.isSuffixOf_iff_suffix.mp h
  have hlong : 4 ≤ id.toList.length := by
    rw [← hfront, List.length_append]
    exact Nat.le_add_left _ _
  refine ⟨?_, ?_, ?_⟩ <;> rintro rfl <;> exact absurd hlong (by decide)

theorem ends_resolveBackup (path : Path) (id : String) (h : Host) :
    Ends (resolveBackup w n m path id) h
      (fun _ h' => h.Still h' ∧ contains id (mark n path) = true ∧ Held m h id) fun _ _ => True := by
  rw [resolveBackup, ends_bind, ends_check]
  refine ⟨fun _ => trivial, fun hvalid => ?_⟩
  have hnamed : Named id := by
    refine named_of_hasSuffix ?_
    by_contra hnot
    exact hvalid (.inr (.inr (.inr (Bool.eq_false_iff.mpr hnot))))
  rw [ends_bind, ends_check]
  refine ⟨fun _ => trivial, fun hcontains => ?_⟩
  dsimp only
  rw [ends_bind]
  refine ends_query (fun _ _ => trivial) fun info _ hinfo => ?_
  obtain ⟨k, hk, hentry⟩ := bind_eq_ok hinfo
  have hentry := entryAt_eq_ok hentry
  obtain ⟨l, hl, -, e, he, hloc⟩ := Fs.follow_concat_ok hnamed hk
  cases info with
  | file attr content =>
    refine ends_pure.mpr ⟨⟨rfl, rfl⟩, Bool.not_eq_false _ ▸ hcontains, l, e, hl, he, ?_⟩
    cases e with
    | dir attr' =>
      rw [hloc rfl, he] at hentry
      cases hentry
    | _ => rfl
  | _ => exact ends_fail.mpr trivial

/-- The path is that of a file the manager may work on. -/
def Managed (m : Manager) (h : Host) (path : Path) : Prop :=
  m.allowed path = true ∧ ∃ e, h.fs.entry path = some e ∧ e.isDir = false ∧ e.isLink = false

theorem ends_resolveFile (path : Path) (h : Host) :
    Ends (m.resolveExisting w path false) h
      (fun r h' => h.Still h' ∧ h.fs.walk 256 [] path = .ok r.1 ∧ Managed m h r.1)
      fun _ _ => True := by
  refine Manager.ends_resolveExisting.mono ?_ fun _ _ _ => trivial
  rintro ⟨resolved, info⟩ h' ⟨hstill, -, hwalk, hallowed, hentry, hdir⟩
  obtain ⟨-, e, he, hlink⟩ := Manager.stat_resolved hwalk
  exact ⟨hstill, hwalk, hallowed, e, he, by rw [he] at hentry; cases hentry; exact hdir, hlink⟩

theorem ends_listBackups (path : String) (h : Host) :
    Ends (m.listBackups w n path) h
      (fun vs _ => ∃ resolved, h.fs.walk 256 [] (m.abs path) = .ok resolved ∧ Managed m h resolved ∧
        ∀ v ∈ vs, contains v.id (mark n resolved) = true ∧ Held m h v.id) fun _ _ => True := by
  rw [Manager.listBackups, ends_bind]
  refine (ends_resolveFile _ h).mono ?_ fun _ _ _ => trivial
  rintro ⟨resolved, info⟩ h' ⟨hstill, hwalk, hmanaged⟩
  refine (ends_listBackupsForResolved resolved h').mono (fun vs _ hvs => ?_) fun _ _ _ => trivial
  exact ⟨resolved, hwalk, hmanaged, fun v hv => ⟨(hvs v hv).1, (hvs v hv).2.still hstill⟩⟩

theorem ends_backupDiff (path id : String) (h : Host) :
    Ends (m.backupDiff w n path id) h
      (fun _ _ => ∃ resolved, h.fs.walk 256 [] (m.abs path) = .ok resolved ∧ Managed m h resolved ∧
        contains id (mark n resolved) = true ∧ Held m h id) fun _ _ => True := by
  rw [Manager.backupDiff, ends_bind]
  refine (ends_resolveFile _ h).mono ?_ fun _ _ _ => trivial
  rintro ⟨resolved, info⟩ h' ⟨hstill, hwalk, hmanaged⟩
  dsimp only
  rw [ends_bind, ends_check]
  refine ⟨fun _ => trivial, fun _ => ?_⟩
  rw [ends_bind]
  refine (ends_resolveBackup resolved id h').mono ?_ fun _ _ _ => trivial
  rintro r h'' ⟨-, hcontains, hheld⟩
  exact ends_true.mono (fun _ _ _ => ⟨resolved, hwalk, hmanaged, hcontains, hheld.still hstill⟩)
    fun _ _ _ => trivial

theorem ends_restoreBackup (path id : String) (h : Host) :
    Ends (m.restoreBackup w n path id) h
      (fun _ _ => ∃ resolved, h.fs.walk 256 [] (m.abs path) = .ok resolved ∧ Managed m h resolved ∧
        contains id (mark n resolved) = true ∧ Held m h id) fun _ _ => True := by
  rw [Manager.restoreBackup, ends_bind]
  refine (ends_resolveFile _ h).mono ?_ fun _ _ _ => trivial
  rintro ⟨resolved, info⟩ h' ⟨hstill, hwalk, hmanaged⟩
  dsimp only
  rw [ends_bind, ensureWritable, ends_check]
  refine ⟨fun _ => trivial, fun _ => ?_⟩
  rw [ends_bind]
  refine (ends_resolveBackup resolved id h').mono ?_ fun _ _ _ => trivial
  rintro r h'' ⟨-, hcontains, hheld⟩
  exact ends_true.mono (fun _ _ _ => ⟨resolved, hwalk, hmanaged, hcontains, hheld.still hstill⟩)
    fun _ _ _ => trivial

/-- What is listed or accepted for a file was created by backups of it. -/
structure Separate (n : Naming) (m : Manager) (h : Host) (path : Path) : Prop where
  lists : ∀ w s, h.fs.walk 256 [] (m.abs s) = .ok path →
    Ends (m.listBackups w n s) h (fun vs _ => ∀ v ∈ vs, CreatedBy n path v.id) fun _ _ => True
  diffs : ∀ w s id, h.fs.walk 256 [] (m.abs s) = .ok path →
    Ends (m.backupDiff w n s id) h (fun _ _ => CreatedBy n path id) fun _ _ => True
  restores : ∀ w s id, h.fs.walk 256 [] (m.abs s) = .ok path →
    Ends (m.restoreBackup w n s id) h (fun _ _ => CreatedBy n path id) fun _ _ => True

/-- What a listing returns was created by backups of the path. -/
theorem Separate.created {n : Naming} {m : Manager} {h : Host} {path : Path} {w : World} {s : String}
    {vs : List BackupVersion} (hsep : Separate n m h path) (hpath : h.fs.walk 256 [] (m.abs s) = .ok path)
    (hresult : (m.listBackups w n s h).1 = .ok vs) : ∀ v ∈ vs, CreatedBy n path v.id :=
  (ends_def.mp (hsep.lists w s hpath)).1 vs hresult

/-- Only the entry at one path can be looked at. -/
def World.onlySees (path : Path) : World :=
  { World.calm with
    fails := fun c =>
      match c with
      | .lstat p => if p = path then none else some .EINTR
      | _ => none }

section

variable {path : Path} {name : String} {h : Host} {l : Loc} {e : Entry}

theorem listed_only (hcontains : contains name (mark n path) = true)
    (hends : hasSuffix name ".bak" = true) (hdir : e.isDir = false) (names : List String)
    (hnames : names.Nodup) (h : Host) (hl : h.fs.locate (versionsDir m ++ [name]) = .ok l)
    (he : h.fs.entry l = some e) :
    Ends (listed (World.onlySees (versionsDir m ++ [name])) n m path names) h
      (fun vs _ => (name ∈ names → ∃ v, v.id = name ∧ vs = [v]) ∧ (name ∉ names → vs = []))
      fun _ _ => False := by
  induction names generalizing h with
  | nil => exact ends_pure.mpr ⟨nofun, fun _ => rfl⟩
  | cons other rest ih =>
    obtain ⟨hout, hrest⟩ := List.nodup_cons.mp hnames
    by_cases hname : other = name
    · subst hname
      have hlook : (h.fs.locate (versionsDir m ++ [other]) >>= entryAt h.fs) = .ok e := by
        rw [hl]
        exact entryAt_of_entry he
      rw [listed, ends_ite]
      refine ⟨fun hskip => ?_, fun _ => ?_⟩
      · rcases hskip with hskip | hskip
        · rw [hcontains] at hskip
          cases hskip
        · rw [hends] at hskip
          cases hskip
      · rw [ends_bind, ends_result]
        refine ends_query_ok (if_pos rfl) hlook ?_
        rw [ends_bind]
        refine (ih hrest ⟨h.fs, h.ticks + 1, h.touched⟩ hl he).mono ?_ fun _ _ hfalse => hfalse
        rintro vs h' ⟨-, hvs⟩
        refine ends_pure.mpr ⟨fun _ => ?_, fun hnot => absurd List.mem_cons_self hnot⟩
        rw [hvs hout, if_neg (by rw [hdir]; exact nofun)]
        exact ⟨_, rfl, rfl⟩
    · have hmem : name ∈ other :: rest ↔ name ∈ rest :=
        List.mem_cons.trans (or_iff_right fun heq => hname heq.symm)
      rw [listed, ends_ite]
      simp only [hmem]
      refine ⟨fun _ => ih hrest h hl he, fun _ => ?_⟩
      rw [ends_bind, ends_result]
      have hfails : (World.onlySees (versionsDir m ++ [name])).fails
          (.lstat (versionsDir m ++ [other])) = some .EINTR :=
        if_neg fun heq => hname (List.singleton_inj.mp (List.append_cancel_left heq))
      refine ends_query (fun _ _ => ih hrest h hl he) fun _ hnone _ => ?_
      rw [hfails] at hnone
      cases hnone

/-- A version taken for one of the file is listed, when no other can be looked at. -/
theorem listBackups_only (hmanaged : Managed m h path)
    (hcontains : contains name (mark n path) = true) (hends : hasSuffix name ".bak" = true)
    (hheld : Held m h name) :
    Ends (m.listBackups (World.onlySees (versionsDir m ++ [name])) n (pathString path)) h
      (fun vs _ => ∃ v ∈ vs, v.id = name) fun _ _ => False := by
  obtain ⟨hallowed, info, hinfo, hfile, hlink⟩ := hmanaged
  obtain ⟨l, e, hl, he, hdir⟩ := hheld
  have habs : m.abs (pathString path) = path :=
    Manager.abs_pathString fun part hpart => (Fs.valid_of_mem hinfo part hpart).1
  have hwalk : h.fs.walk 256 [] path = .ok path := Fs.walkFrom_entry [] hinfo hlink
  have hisdir : h.fs.IsDirAt l := Fs.dir_of_below (by simp) he
  rw [Manager.listBackups, habs, ends_bind, ← hfile]
  refine (Manager.resolveExisting_succeeds ⟨rfl, rfl⟩ hallowed hwalk hallowed hinfo).mono ?_
    fun _ _ hfalse => hfalse
  rintro r h' ⟨hstill, rfl⟩
  dsimp only
  rw [listBackupsForResolved, ends_bind, ends_result]
  obtain ⟨attr, hattr⟩ := hisdir
  refine ends_readDir_ok (l := l) rfl (by rw [hstill.1, hl])
    (show h'.fs.entry l = some (.dir attr) by rw [hstill.1, hattr]) ?_
  rw [hstill.1]
  rw [ends_bind]
  refine (listed_only (l := l ++ [name]) (e := e) hcontains hends hdir _ Fs.nodup_names _ ?_ ?_).mono
    ?_ fun _ _ hfalse => hfalse
  · exact Fs.locate_concat hl ⟨attr, hattr⟩
  · exact he
  · rintro vs h'' ⟨hvs, -⟩
    obtain ⟨v, hv, rfl⟩ := hvs (Fs.mem_names.mpr ⟨e, he⟩)
    refine ends_pure.mpr ⟨v, ?_, hv⟩
    rw [List.perm_singleton.mp (n.byNewest_perm [v])]
    exact List.mem_singleton_self v

end

/-- Exactly when no version in the store is of a file whose name holds the hash of the path, only
versions of the path are listed, compared and restored for it. -/
theorem separate_iff {files : Path → Prop} {h : Host} {path : Path} (hstore : Store n m files h)
    (hhash : ∀ other, files other → other ≠ path → n.pathHash other ≠ n.pathHash path) :
    Separate n m h path ↔ (Managed m h path → ∀ other time, files other → other ≠ path →
      Held m h (versionName n time other) → ¬ Embeds n path other) := by
  constructor
  · intro hsep hmanaged other time hother hne hheld hembeds
    have hcontains := (contains_versionName time (hhash other hother hne)).mpr hembeds
    have hlists := listBackups_only hmanaged hcontains (hasSuffix_versionName time other) hheld
    have habs : h.fs.walk 256 [] (m.abs (pathString path)) = .ok path := by
      obtain ⟨-, info, hinfo, -, hlink⟩ := hmanaged
      rw [Manager.abs_pathString fun part hpart => (Fs.valid_of_mem hinfo part hpart).1]
      exact Fs.walkFrom_entry [] hinfo hlink
    refine not_ends_false ((hlists.and (hsep.lists _ _ habs)).mono ?_ fun _ _ hend => hend.1)
    rintro vs h' ⟨⟨v, hv, hid⟩, hcreated⟩
    obtain ⟨time', hname⟩ := hcreated v hv
    exact hhash other hother hne (hash_eq_of_versionName (hid.symm.trans hname))
  · intro hcond
    have hcreated : ∀ id, Managed m h path → contains id (mark n path) = true → Held m h id →
        CreatedBy n path id := by
      intro id hmanaged hcontains hheld
      obtain ⟨other, hother, time, rfl⟩ := created_of_store hstore hheld
      by_cases hne : other = path
      · exact ⟨time, by rw [hne]⟩
      · exact absurd ((contains_versionName time (hhash other hother hne)).mp hcontains)
          (hcond hmanaged other time hother hne hheld)
    refine ⟨fun w s hwalk => ?_, fun w s id hwalk => ?_, fun w s id hwalk => ?_⟩
    · refine (ends_listBackups s h).mono ?_ fun _ _ _ => trivial
      rintro vs h' ⟨resolved, hres, hmanaged, hvs⟩ v hv
      obtain rfl : path = resolved := Except.ok.inj (hwalk.symm.trans hres)
      exact hcreated v.id hmanaged (hvs v hv).1 (hvs v hv).2
    · refine (ends_backupDiff s id h).mono ?_ fun _ _ _ => trivial
      rintro r h' ⟨resolved, hres, hmanaged, hcontains, hheld⟩
      obtain rfl : path = resolved := Except.ok.inj (hwalk.symm.trans hres)
      exact hcreated id hmanaged hcontains hheld
    · refine (ends_restoreBackup s id h).mono ?_ fun _ _ _ => trivial
      rintro r h' ⟨resolved, hres, hmanaged, hcontains, hheld⟩
      obtain rfl : path = resolved := Except.ok.inj (hwalk.symm.trans hres)
      exact hcreated id hmanaged hcontains hheld

/-! ## A file named after the hash of another one -/

def conf : Path := ["srv", "app.conf"]

def notes : Path := ["srv", "0123456789abcdef-notes"]

/-- Both files are there, and the second one was backed up. -/
def edited : Host :=
  (backup World.calm (Naming.single conf) Manager.whole notes (.file (Attr.ofPerm 0o644#9) [2])
    { fs := Fs.ofItems
        [([], .dir (Attr.ofPerm 0o755#9)), (["var"], .dir (Attr.ofPerm 0o755#9)),
          (["srv"], .dir (Attr.ofPerm 0o755#9)), (["var", "lib"], .dir (Attr.ofPerm 0o755#9)),
          (conf, .file (Attr.ofPerm 0o644#9) [1]), (notes, .file (Attr.ofPerm 0o644#9) [2])]
        (by decide +kernel)
      ticks := 0
      touched := [] }).2

theorem edited_store : Store (Naming.single conf) Manager.whole (· ∈ [conf, notes]) edited := by
  refine .backup _ _ _ _ (.empty _ ?_) (List.mem_cons_of_mem _ (List.mem_singleton_self _))
  rintro name ⟨l, e, hl, -⟩
  cases hl

theorem conf_separate_iff : Separate (Naming.single conf) Manager.whole edited conf ↔
    (Managed Manager.whole edited conf → ∀ other time, other ∈ [conf, notes] → other ≠ conf →
      Held Manager.whole edited (versionName (Naming.single conf) time other) →
        ¬ Embeds (Naming.single conf) conf other) :=
  separate_iff edited_store fun _ _ hne => Naming.single_pathHash_ne hne

/-- The version of the one file is listed for the other. -/
theorem notes_listed_for_conf :
    (Naming.single conf).pathHash notes ≠ (Naming.single conf).pathHash conf ∧
      Store (Naming.single conf) Manager.whole (· ∈ [conf, notes]) edited ∧
      ¬ Separate (Naming.single conf) Manager.whole edited conf := by
  have hhash : (Naming.single conf).pathHash notes ≠ (Naming.single conf).pathHash conf :=
    Naming.single_pathHash_ne (by decide)
  refine ⟨hhash, edited_store, fun hsep => ?_⟩
  have hpath : edited.fs.walk 256 [] (Manager.whole.abs "/srv/app.conf") = .ok conf := by
    decide +kernel
  have hrun : (Manager.whole.listBackups World.calm (Naming.single conf) "/srv/app.conf" edited).1.toOption.map
      (List.map BackupVersion.id) = some [versionName (Naming.single conf) 0 notes] := by
    decide +kernel
  cases hresult : (Manager.whole.listBackups World.calm (Naming.single conf) "/srv/app.conf" edited).1 with
  | error err =>
    rw [hresult] at hrun
    cases hrun
  | ok vs =>
    rw [hresult] at hrun
    have hids : vs.map BackupVersion.id = [versionName (Naming.single conf) 0 notes] :=
      Option.some.inj hrun
    obtain ⟨v, hv, hid⟩ := List.mem_map.mp (hids ▸ List.mem_singleton_self _ :
      versionName (Naming.single conf) 0 notes ∈ vs.map BackupVersion.id)
    obtain ⟨time, hname⟩ := hsep.created hpath hresult v hv
    exact hhash (hash_eq_of_versionName (hid.symm.trans hname))

end LukePanel.Files.VersionOwners
