import LukePanel.Files.CopyTree

/-! # Moving across devices

When a rename fails because the destination is on another device, `moveInternal` copies the tree
and removes the source. Here is when the result is the tree a rename would have given. -/
namespace LukePanel.Files.CrossDevice
open LukePanel.Library.Attempt LukePanel.Library.FileSystem LukePanel.Library.Syscalls
open LukePanel.Library.SlashPath LukePanel.Files.Paths LukePanel.Files.Copying
open LukePanel.Files.CopyTree
open Prog

variable {w : World} {h h' : Host} {src top d : Loc} {source p : Path} {name : String}

/-- Changes below one place leave what is apart from it. -/
theorem within_apart (hw : h.Within (top <+: ·) h') (hap : Apart src top) (k : Loc) :
    h'.fs.entry (src ++ k) = h.fs.entry (src ++ k) := by
  have hout : ∀ l, src <+: l → ¬ top <+: l := fun l hs htop =>
    (List.prefix_or_prefix_of_prefix hs htop).elim hap.1 hap.2
  refine hw.exact _ (hout _ (List.prefix_append src k)) fun l htop heq => hout l ?_ htop
  exact (heq ▸ List.prefix_append src k : src <+: l.dropLast).trans (List.dropLast_prefix l)

theorem copyPath_link {info : Entry} {destination : Path} (depth : Nat) (hlink : info.isLink = true) :
    Ends (copyPath w depth source destination info) h (fun _ _ => False) fun _ h' => h' = h := by
  cases depth with
  | zero => exact ends_fail.mpr rfl
  | succ depth =>
    rw [copyPath, ends_bind, ends_check]
    exact ⟨fun _ => rfl, fun hnot => absurd hlink hnot⟩

/-- The removal of the source at the end of a move. -/
theorem ends_removeSource {info : Entry} {g : Bool} {h₁ : Host} (hsource : Place h₁.fs source src)
    (hap : Apart src top) (hcopied : CopiedTree w g h src h₁ p top) :
    Ends (if info.isDir then removeAll w source else remove w source) h₁
      (fun _ h' => CopiedTree w g h src h' p top) fun _ _ => True := by
  have hkeep : ∀ hl left, CopiedTree w g h src (removed w h₁ src hl left) p top := fun hl left =>
    hcopied.congr (fun _ => rfl) (within_apart (within_removed src hl left) ⟨hap.2, hap.1⟩)
  rw [ends_ite]
  refine ⟨fun _ => ?_, fun _ => ?_⟩
  · refine ends_removeAll (fun _ => trivial) hcopied (fun _ _ _ _ _ => trivial)
      fun l hl e hlocate _ _ => ?_
    obtain rfl : src = l := Except.ok.inj (hsource.locate.symm.trans hlocate)
    exact hkeep hl []
  · refine ends_remove (fun _ => trivial) fun l hl e hlocate _ _ _ => ?_
    obtain rfl : src = l := Except.ok.inj (hsource.locate.symm.trans hlocate)
    exact hkeep hl []

/-- A move to another device that succeeds leaves a copy. -/
theorem ends_moveInternal_exdev {info : Entry} {attr : Attr} (hsource : Place h.fs source src)
    (hinfo : h.fs.entry src = some info) (hname : Named name) (hp : Leading h.fs p d)
    (hd : h.fs.entry d = some (.dir attr)) (hout : ¬ src <+: d ++ [name])
    (hexdev : w.fails (.rename source (p ++ [name])) = some .EXDEV) :
    Ends (moveInternal w source (p ++ [name]) info) h
      (fun _ h' => ¬ d ++ [name] <+: src ∧
        CopiedTree w attr.mode.setgid h src h' (p ++ [name]) (d ++ [name])) fun _ _ => True := by
  have hrename : rename w source (p ++ [name]) h = (.error (.sys .EXDEV), h) := by
    unfold rename effect
    rw [hexdev]
  rw [moveInternal, ends_bind, ends_result]
  unfold Ends
  rw [hrename]
  dsimp only
  change Ends _ h _ _
  rw [if_pos (by decide), ends_bind]
  cases hlink : info.isLink with
  | true => exact (copyPath_link maxDepth hlink).mono (fun _ _ => False.elim) fun _ _ _ => trivial
  | false =>
  refine (ends_copyPath (s := src) maxDepth h hname hp hd).mono ?_ fun _ _ _ => trivial
  rintro - h₁ ⟨hg, hcopied⟩
  have hap : Apart src (d ++ [name]) := by
    refine ⟨hout, fun ⟨k, hk⟩ => ?_⟩
    rw [← hk, Fs.none_of_none hg.free] at hinfo
    cases hinfo
  exact (ends_removeSource (hsource.mono hg.leads) hap
    (hcopied (hsource.follow hinfo hlink) hinfo hap)).mono (fun _ _ h' => ⟨hap.2, h'⟩) fun _ _ => id

/-! ## The same tree -/

/-- An entry without its owner. -/
def unowned : Entry → Entry := Entry.withAttr fun attr => { attr with uid := 0, gid := 0 }

/-- The trees at a place are the same: entries, types, contents, modes and times. -/
def SameTree (h h' : Host) (top : Loc) : Prop :=
  ∀ k, (h.fs.entry (top ++ k)).map unowned = (h'.fs.entry (top ++ k)).map unowned

/-- An entry of which a copy in a new directory has all there is. -/
def Carried (w : World) (setgid : Bool) (p : Path) : Entry → Prop
  | .dir attr => attr.mode = madeMode w attr.mode.perm setgid
  | .file attr _ => attr.mode = madeMode w attr.mode.perm false ∧ w.fails (.chtimes p) = none
  | .link _ | .special _ _ => False

theorem unowned_eq {e : Entry} {g : Bool} {l : Loc} (hcarried : Carried w g p e)
    (himage : Image w g h p l e) : (h.fs.entry l).map unowned = some (unowned e) := by
  cases e with
  | dir attr =>
    obtain ⟨uid, gid, he⟩ := himage
    rw [he, ← hcarried]
    rfl
  | file attr content =>
    obtain ⟨t, ht, uid, gid, he⟩ := himage
    rw [he, ← hcarried.1, ht.1 hcarried.2]
    rfl
  | link target => exact hcarried.elim
  | special attr kind => exact hcarried.elim

theorem carried_of_eq {e : Entry} {g : Bool} {l : Loc} (himage : Image w g h p l e)
    (hclock : ∀ ticks, w.clock ticks ≠ (attrOf e).mtime)
    (heq : (h.fs.entry l).map unowned = some (unowned e)) : Carried w g p e := by
  cases e with
  | dir attr =>
    obtain ⟨uid, gid, he⟩ := himage
    rw [he] at heq
    exact (Attr.mk.inj (Entry.dir.inj (Option.some.inj heq))).1.symm
  | file attr content =>
    obtain ⟨t, ht, uid, gid, he⟩ := himage
    rw [he] at heq
    obtain ⟨hattr, -⟩ := Entry.file.inj (Option.some.inj heq)
    obtain ⟨hmode, -, -, htime⟩ := Attr.mk.inj hattr
    refine ⟨hmode.symm, ?_⟩
    by_contra hfails
    obtain ⟨ticks, hticks⟩ := ht.2 hfails
    exact hclock ticks (hticks.symm.trans htime)
  | link target => exact himage.elim
  | special attr kind =>
    obtain ⟨t, content, uid, gid, he⟩ := himage
    rw [he] at heq
    cases Option.some.inj heq

/-- Where a rename would have moved the tree. -/
theorem entry_moved {hsrc : src ≠ []} {t : h.fs.Target src} (hout : ¬ t.loc <+: src) (k : Loc) :
    (h.moved w src hsrc t).fs.entry (t.loc ++ k) = h.fs.entry (src ++ k) := by
  have hdir : t.loc ++ k ≠ t.dir := fun heq => by
    have hlength := congrArg List.length heq
    simp only [Fs.Target.loc, List.length_append, List.length_singleton] at hlength
    omega
  have hparent : t.loc ++ k ≠ src.dropLast := fun heq =>
    hout ((heq ▸ List.prefix_append t.loc k : t.loc <+: src.dropLast).trans (List.dropLast_prefix src))
  rw [Host.moved, entry_stamp_of_ne hdir, entry_stamp_of_ne hparent]
  dsimp only [Fs.move]
  rw [if_pos (List.prefix_append _ _), List.drop_left]

/-- A move across devices that succeeds gives the tree a rename would have given if every entry of
the source carries over, and only then, when the clock shows none of the times in the source. -/
theorem exdev_same_iff {info : Entry} {t : h.fs.Target src} (hsource : Place h.fs source src)
    (hinfo : h.fs.entry src = some info) (hname : Named name) (hp : Leading h.fs p d)
    (htarget : h.fs.target src (p ++ [name]) = .ok t)
    (hexdev : w.fails (.rename source (p ++ [name])) = some .EXDEV)
    (hrun : moveInternal w source (p ++ [name]) info h = (.ok (), h')) :
    ((∀ k e, h.fs.entry (src ++ k) = some e → Carried w t.attr.mode.setgid (p ++ [name] ++ k) e) →
      SameTree h' (h.moved w src hsource.ne_nil t) t.loc) ∧
    ((∀ k e ticks, h.fs.entry (src ++ k) = some e → w.clock ticks ≠ (attrOf e).mtime) →
      SameTree h' (h.moved w src hsource.ne_nil t) t.loc →
        ∀ k e, h.fs.entry (src ++ k) = some e →
          Carried w t.attr.mode.setgid (p ++ [name] ++ k) e) := by
  obtain ⟨hpath, hfollow⟩ := Fs.target_ok htarget
  rw [List.dropLast_concat] at hpath hfollow
  obtain ⟨-, hlast⟩ := List.append_inj' hpath rfl
  obtain rfl : name = t.name := List.singleton_inj.mp hlast
  obtain rfl : d = t.dir := Except.ok.inj (hp.leads.symm.trans hfollow)
  obtain ⟨hends, -⟩ := ends_def.mp
    (ends_moveInternal_exdev hsource hinfo hname hp t.isDir t.outside hexdev)
  rw [hrun] at hends
  obtain ⟨hout, hcopied⟩ := hends () rfl
  have hmoved : ∀ k, (h.moved w src hsource.ne_nil t).fs.entry (t.loc ++ k) = h.fs.entry (src ++ k) :=
    entry_moved hout
  refine ⟨fun hcarried k => ?_, fun hclock hsame k e he => ?_⟩
  · rw [hmoved]
    cases he : h.fs.entry (src ++ k) with
    | none =>
      have hnone : h'.fs.entry (t.loc ++ k) = none := hcopied.none k he
      rw [hnone]
    | some e => exact unowned_eq (hcarried k e he) (hcopied.each k e he)
  · have heq := hsame k
    rw [hmoved, he] at heq
    exact carried_of_eq (hcopied.each k e he) (fun ticks => hclock k e ticks he) heq

/-! ## A script its group may write -/

/-- `/mnt` is another device than `/srv`. -/
def mounted (umask : BitVec 9) : World :=
  { World.calm with
    umask
    fails := fun c => if c = .rename ["srv", "app"] ["mnt", "app"] then some .EXDEV else none }

def deployed : Host where
  fs := Fs.ofItems
    [([], .dir (Attr.ofPerm 0o755#9)), (["mnt"], .dir (Attr.ofPerm 0o755#9)),
      (["srv"], .dir (Attr.ofPerm 0o755#9)), (["srv", "app"], .dir (Attr.ofPerm 0o755#9)),
      (["srv", "app", "run.sh"], .file (Attr.ofPerm 0o775#9) [1])] (by decide +kernel)
  ticks := 0
  touched := []

def toMnt : deployed.fs.Target ["srv", "app"] where
  dir := ["mnt"]
  name := "app"
  attr := Attr.ofPerm 0o755#9
  isDir := by decide +kernel
  valid := by decide +kernel
  outside := by decide

def movedToMnt (umask : BitVec 9) : Except Err Unit × Host :=
  moveInternal (mounted umask) ["srv", "app"] (["mnt"] ++ ["app"]) (.dir (Attr.ofPerm 0o755#9)) deployed

theorem deployed_same : SameTree (movedToMnt 0o002#9).2
    (deployed.moved (mounted 0o002#9) ["srv", "app"] (by decide) toMnt) toMnt.loc := by
  have hinfo : deployed.fs.entry ["srv", "app"] = some (.dir (Attr.ofPerm 0o755#9)) := rfl
  have hname : Named "app" := ⟨by decide, by decide, by decide⟩
  have hlead : Leading deployed.fs ["mnt"] ["mnt"] := ⟨by rfl, _, rfl⟩
  have htarget : deployed.fs.target ["srv", "app"] (["mnt"] ++ ["app"]) = .ok toMnt := rfl
  have hexdev : (mounted 0o002#9).fails (.rename ["srv", "app"] (["mnt"] ++ ["app"])) =
      some .EXDEV := rfl
  have hrun : moveInternal (mounted 0o002#9) ["srv", "app"] (["mnt"] ++ ["app"])
      (.dir (Attr.ofPerm 0o755#9)) deployed = (.ok (), (movedToMnt 0o002#9).2) :=
    Prod.ext (by decide +kernel) (by rw [movedToMnt])
  refine (exdev_same_iff (place_of_entry hinfo (by decide)) hinfo hname hlead htarget hexdev hrun).1
    fun k e he => ?_
  have hcases : k = [] ∧ e = .dir (Attr.ofPerm 0o755#9) ∨
      k = ["run.sh"] ∧ e = .file (Attr.ofPerm 0o775#9) [1] := by
    simpa using Fs.mem_of_lookup he
  obtain ⟨rfl, rfl⟩ | ⟨rfl, rfl⟩ := hcases
  · exact (by decide +kernel :
      (Attr.ofPerm 0o755#9).mode = madeMode (mounted 0o002#9) 0o755#9 false)
  · exact ⟨(by decide +kernel :
      (Attr.ofPerm 0o775#9).mode = madeMode (mounted 0o002#9) 0o775#9 false), rfl⟩

theorem run_sh_loses_write : (movedToMnt 0o022#9).1 = .ok () ∧ ¬ SameTree (movedToMnt 0o022#9).2
    (deployed.moved (mounted 0o022#9) ["srv", "app"] (by decide) toMnt) toMnt.loc :=
  ⟨by decide +kernel, fun hsame => absurd (hsame ["run.sh"]) (by decide +kernel)⟩

end LukePanel.Files.CrossDevice
