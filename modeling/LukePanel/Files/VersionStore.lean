import LukePanel.Files.Versions
import LukePanel.Library.Directories

/-! # The store of versions

What a backup leaves in the directory of versions, whatever fails: at most its own version is new
there. -/
namespace LukePanel.Files.VersionStore
open LukePanel.Library.Attempt LukePanel.Library.FileSystem LukePanel.Library.Syscalls
open LukePanel.Library.SlashPath LukePanel.Files.Paths LukePanel.Files.Versions
open Prog

variable {w : World} {n : Naming} {m : Manager}

theorem named_versionsDir : ∀ part ∈ versionsDir m, Named part := by
  intro part hpart
  rcases List.mem_append.mp hpart with hdata | hown
  · exact (m.cleaned _ List.mem_cons_self part hdata).1
  · have hcases : part = "backups" ∨ part = "files" := by simpa using hown
    rcases hcases with rfl | rfl <;> exact ⟨by decide, by decide, by decide⟩

/-- A place in a directory. -/
def Child (l k : Loc) : Prop := ∃ name, l ++ [name] <+: k

/-- What is left of the directory of versions at `l`: no entry is new but that under one name, and
its path leads nowhere else. -/
structure Saved (m : Manager) (h₁ : Host) (l : Loc) (new : String) (h : Host) : Prop where
  within : h₁.Within (Child l) h
  kept : ∀ name e, h.fs.entry (l ++ [name]) = some e →
    name = new ∨ ∃ e', h₁.fs.entry (l ++ [name]) = some e' ∧ e'.untimed = e.untimed
  leads : ∀ l', h.fs.follow (versionsDir m) = .ok l' → l' = l

variable {h₁ h h' : Host} {l : Loc} {new : String}

theorem Saved.still (hs : Saved m h₁ l new h) (hstill : h.Still h') : Saved m h₁ l new h' where
  within := hs.within.trans (.of_eq hstill.1 hstill.2)
  kept := by
    rw [hstill.1]
    exact hs.kept
  leads := by
    rw [hstill.1]
    exact hs.leads

theorem keeps_query {α : Type} {c : Call} {f : Fs → Except Errno α} :
    Keeps (Saved m h₁ l new) (query w c f) := fun _ hs =>
  ends_query (fun _ _ => hs) fun _ _ _ => hs.still ⟨rfl, rfl⟩

/-- An entry of the directory is removed. -/
theorem keeps_remove (name : String) :
    Keeps (Saved m h₁ l new) (remove w (versionsDir m ++ [name])) := by
  intro h hs
  refine ends_remove (fun _ => hs) fun k hk e hlocate _ _ _ => ?_
  obtain ⟨d, hd, -, rfl⟩ := Fs.locate_concat_ok hlocate
  obtain rfl := hs.leads d hd
  have hwithin : h.Within (Child d) (removed w h (d ++ [name]) hk []) :=
    (within_removed _ hk []).mono fun k' hk' => ⟨name, hk'⟩
  refine ⟨hs.within.trans hwithin, fun name' e' he' => ?_, fun l' hl' => ?_⟩
  · obtain ⟨e₀, he₀, hun₀⟩ := entry_removed he'
    rcases hs.kept name' e₀ he₀ with rfl | ⟨e₁, he₁, hun₁⟩
    · exact .inl rfl
    · exact .inr ⟨e₁, he₁, hun₁.trans hun₀⟩
  · exact hs.leads l' (Fs.follow_mono leads_removed hl')

/-! ## Pruning -/

theorem keeps_candidates (names : List String) :
    Keeps (Saved m h₁ l new) (candidates w (versionsDir m) names) := by
  induction names with
  | nil => exact keeps_pure _
  | cons name rest ih =>
    refine keeps_bind (keeps_result keeps_query) fun r => ?_
    cases r with
    | ok info => exact keeps_bind ih fun _ => keeps_pure _
    | error err => exact ih

theorem candidates_paths (dir : Path) (names : List String) (h : Host) :
    Ends (candidates w dir names) h
      (fun files _ => ∀ file ∈ files, ∃ name ∈ names, file.path = dir ++ [name])
      fun _ _ => True := by
  induction names generalizing h with
  | nil => exact ends_pure.mpr nofun
  | cons name rest ih =>
    rw [candidates, ends_bind, ends_result]
    have hmore : ∀ {file : Candidate}, (∃ other ∈ rest, file.path = dir ++ [other]) →
        ∃ other ∈ name :: rest, file.path = dir ++ [other] :=
      fun ⟨other, hother, hpath⟩ => ⟨other, List.mem_cons_of_mem _ hother, hpath⟩
    refine ends_query (fun _ _ => ?_) fun info _ _ => ?_
    · exact (ih h).mono (fun _ _ hfiles file hfile => hmore (hfiles file hfile)) fun _ _ _ => trivial
    · rw [ends_bind]
      refine (ih _).mono (fun files _ hfiles => ends_pure.mpr ?_) fun _ _ _ => trivial
      intro file hfile
      split at hfile
      · exact hmore (hfiles file hfile)
      · rcases List.mem_cons.mp hfile with rfl | hfile
        · exact ⟨name, List.mem_cons_self, rfl⟩
        · exact hmore (hfiles file hfile)

theorem keeps_removeOldest (maxBytes maxFiles : Nat) {files : List Candidate}
    (hfiles : ∀ file ∈ files, ∃ name, file.path = versionsDir m ++ [name]) (total : Nat) :
    Keeps (Saved m h₁ l new) (removeOldest w maxBytes maxFiles files total) := by
  induction files generalizing total with
  | nil => exact keeps_pure _
  | cons file rest ih =>
    obtain ⟨name, hname⟩ := hfiles file List.mem_cons_self
    have hrest := ih fun other hother => hfiles other (List.mem_cons_of_mem _ hother)
    refine keeps_ite (keeps_bind (keeps_result ?_) fun r => ?_) (keeps_pure _)
    · rw [hname]
      exact keeps_remove name
    · cases r with
      | ok _ => exact hrest _
      | error err => exact hrest _

theorem keeps_pruneDirectory (maxBytes maxFiles : Nat) :
    Keeps (Saved m h₁ l new) (pruneDirectory w n (versionsDir m) maxBytes maxFiles) := by
  refine keeps_bind keeps_query fun names => fun h hs => ends_bind.mpr ?_
  refine ((keeps_candidates names h hs).and (candidates_paths _ names h)).mono ?_
    fun _ _ hend => hend.1
  rintro files h₂ ⟨hs₂, hpaths⟩
  refine keeps_removeOldest maxBytes maxFiles (fun file hfile => ?_) _ h₂ hs₂
  obtain ⟨name, -, hname⟩ := hpaths file ((n.byAge_perm files).mem_iff.mp hfile)
  exact ⟨name, hname⟩

/-! ## Backups -/

/-- The version is in the directory. -/
structure Holding (m : Manager) (h₁ : Host) (l : Loc) (new : String) (h : Host) : Prop
    extends Saved m h₁ l new h where
  here : h.fs.follow (versionsDir m) = .ok l
  isDir : h.fs.IsDirAt l
  file : ∃ attr content, h.fs.entry (l ++ [new]) = some (.file attr content)

theorem Holding.still (hs : Holding m h₁ l new h) (hstill : h.Still h') :
    Holding m h₁ l new h' where
  toSaved := hs.toSaved.still hstill
  here := by
    rw [hstill.1]
    exact hs.here
  isDir := by
    rw [hstill.1]
    exact hs.isDir
  file := by
    rw [hstill.1]
    exact hs.file

theorem Holding.append (hnew : Named new) (hs : Holding m h₁ l new h) (bytes : Bytes) :
    Holding m h₁ l new (appendTo w (versionsDir m ++ [new]) bytes h) := by
  obtain ⟨attr, content, hfile⟩ := hs.file
  have hfollow := Fs.follow_concat hnew hs.here hs.isDir hfile rfl
  have hentry := entry_appendTo (w := w) bytes hfollow hfile
  have hleads := leads_appendTo (w := w) bytes hfollow hfile
  have hhere := Fs.follow_mono hleads hs.here
  refine ⟨⟨?_, fun name e he => ?_, fun l' hl' => ?_⟩, hhere, hleads.isDirAt hs.isDir, ?_⟩
  · exact hs.within.trans ((within_appendTo bytes hfollow).mono fun k hk => ⟨new, hk ▸ List.prefix_refl _⟩)
  · rw [hentry] at he
    split at he
    · rename_i heq
      exact .inl (List.singleton_inj.mp (List.append_cancel_left heq))
    · exact hs.kept name e he
  · exact Except.ok.inj (hl'.symm.trans hhere)
  · exact ⟨_, _, by rw [hentry, if_pos rfl]⟩

theorem holding_made {v : h.fs.Vacant} {attr : Attr}
    (hfollow : h.fs.follow (versionsDir m) = .ok v.dir) :
    Holding m h v.dir v.name (h.made w v (.file attr [])) := by
  have hwithin := within_made (w := w) v (.file attr [])
  have hleads : Fs.Leads h.fs (h.made w v (.file attr [])).fs := leads_made
  have hhere := Fs.follow_mono hleads hfollow
  refine ⟨⟨hwithin.mono fun k hk => ⟨v.name, hk ▸ List.prefix_refl _⟩, fun name e he => ?_,
    fun l' hl' => Except.ok.inj (hl'.symm.trans hhere)⟩, hhere, hleads.isDirAt ⟨_, v.isDir⟩, ?_⟩
  · by_cases hname : name = v.name
    · exact .inl hname
    · have hne : v.dir ++ [name] ≠ v.loc := fun heq =>
        hname (List.singleton_inj.mp (List.append_cancel_left heq))
      exact .inr (hwithin.entry_before hne he)
  · obtain ⟨e, he, hun⟩ := Option.map_eq_some_iff.mp
      (entry_made (w := w) (v := v) (e := .file attr []))
    cases e with
    | file attr' content => exact ⟨attr', content, he⟩
    | _ => cases hun

theorem keeps_copyTo (hnew : Named new) (src : Loc) (limit : Option Nat) :
    Keeps (Holding m h₁ l new) (copyTo w (versionsDir m ++ [new]) src limit) := fun _ hs =>
  ends_copyTo (fun _ _ => hs) (fun _ _ _ _ => hs.append hnew _) fun _ _ _ _ => hs.append hnew _

/-- What a backup of the file at `path` leaves. -/
def Backed (n : Naming) (m : Manager) (path : Path) (h h' : Host) : Prop :=
  Prepared h h' (versionsDir m) ∨
    ∃ h₁ l time, MadeAll h h₁ (versionsDir m) l ∧ Saved m h₁ l (versionName n time path) h'

theorem named_versionName (time : Nat) (path : Path) : Named (versionName n time path) := by
  have hlength := n.stamp_length time
  have hlong : 4 < (versionName n time path).toList.length := by
    simp only [versionName, String.toList_append, List.length_append, hlength]
    omega
  refine ⟨?_, ?_, ?_⟩ <;> rintro heq <;> rw [heq] at hlong <;> exact absurd hlong (by decide)

theorem ends_backup (path : Path) (info : Entry) (h : Host) :
    Ends (backup w n m path info) h (fun _ => Backed n m path h) fun _ => Backed n m path h := by
  rw [backup, ends_ite]
  refine ⟨fun _ => ends_pure.mpr (.inl (.inl ⟨rfl, rfl⟩)), fun _ => ?_⟩
  rw [ends_bind]
  refine ends_query (fun _ _ => .inl (.inl ⟨rfl, rfl⟩)) fun src _ _ => ?_
  rw [ends_bind]
  have hopened : h.Still ⟨h.fs, h.ticks + 1, h.touched⟩ := ⟨rfl, rfl⟩
  refine (ends_mkdirAll named_versionsDir _).mono ?_ fun _ _ hprep => .inl (hprep.after hopened)
  rintro - h₁ ⟨l, hmade⟩
  have hread : h₁.Still ⟨h₁.fs, h₁.ticks + 1, h₁.touched⟩ := ⟨rfl, rfl⟩
  replace hmade := (hmade.after hopened).still hread
  rw [ends_bind]
  change Ends _ (Host.mk h₁.fs (h₁.ticks + 1) h₁.touched) _ _
  generalize Host.mk h₁.fs (h₁.ticks + 1) h₁.touched = h₂ at hmade
  dsimp only
  rw [ends_bind]
  refine ends_make (fun _ _ => .inl hmade.prepared) fun v _ hv => ?_
  obtain ⟨hfollow, hname, -⟩ := Fs.vacant_concat_ok hv
  obtain rfl : l = v.dir := Except.ok.inj (hmade.leads.symm.trans hfollow)
  rw [← hname]
  have hnamed : Named v.name := hname ▸ named_versionName _ path
  have hdone : ∀ h', Saved m h₂ v.dir v.name h' → Backed n m path h h' := fun h' hs =>
    .inr ⟨h₂, v.dir, w.clock h₁.ticks, hmade, hname ▸ hs⟩
  rw [ends_bind, ends_onFail]
  refine ((keeps_copyTo hnamed src none) _ (holding_made hfollow)).mono
    (fun _ h₃ hs₃ => ?_) fun _ h₃ hs₃ => ?_
  · rw [ends_bind]
    refine (keeps_query h₃ hs₃.toSaved).mono (fun _ h₄ hs₄ => ?_) fun _ h₄ hs₄ => hdone h₄ hs₄
    exact (keeps_dropped (keeps_pruneDirectory _ _) h₄ hs₄).mono (fun _ => hdone) fun _ => hdone
  · exact ((keeps_remove v.name) h₃ hs₃.toSaved).mono (fun _ => hdone) fun _ => hdone

end LukePanel.Files.VersionStore
