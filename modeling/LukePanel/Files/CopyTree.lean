import LukePanel.Files.Copying

/-! # What copying leaves

Copying changes nothing but what is at and below its destination, which was free, whatever fails. -/
namespace LukePanel.Files.CopyTree
open LukePanel.Library.Attempt LukePanel.Library.FileSystem LukePanel.Library.Syscalls
open LukePanel.Library.SlashPath LukePanel.Files.Paths LukePanel.Files.Copying
open Prog

variable {w : World} {h h' h'' : Host} {top d s : Loc} {p source : Path} {name : String}

/-- Nothing has changed but at and below a place that was free. -/
structure Grown (h h' : Host) (top : Loc) : Prop where
  free : h.fs.entry top = none
  within : h.Within (top <+: ·) h'

namespace Grown

theorem leads (hg : Grown h h' top) : Fs.Leads h.fs h'.fs :=
  hg.within.leads fun _ ⟨_, hk⟩ => hk ▸ Fs.none_of_none hg.free

theorem still (hg : Grown h h' top) (hstill : h'.Still h'') : Grown h h'' top :=
  ⟨hg.free, hg.within.trans (.of_eq hstill.1 hstill.2)⟩

theorem below (hg : Grown h h' top) {k : Loc} (hk : top <+: k) (hw : h'.Within (k <+: ·) h'') :
    Grown h h'' top :=
  ⟨hg.free, hg.within.trans (hw.mono fun _ hl => hk.trans hl)⟩

theorem changed (hg : Grown h h' top) {k : Loc} (hk : top <+: k) (hw : h'.Within (· = k) h'') :
    Grown h h'' top :=
  ⟨hg.free, hg.within.trans (hw.mono fun _ hl => hl ▸ hk)⟩

end Grown

/-- Nothing has changed, or only at and below the place. -/
def Kept (h h' : Host) (top : Loc) : Prop := h.Still h' ∨ Grown h h' top

theorem Kept.still (hk : Kept h h' top) (hstill : h'.Still h'') : Kept h h'' top :=
  hk.imp (·.trans hstill) (·.still hstill)

/-! ## Single calls at the place -/

theorem grown_made (hstill : h.Still h') (v : h'.fs.Vacant) (e : Entry) :
    Grown h (h'.made w v e) (v.dir ++ [v.name]) := by
  refine ⟨hstill.1 ▸ v.free, (Host.Within.of_eq hstill.1 hstill.2).trans ((within_made v e).mono ?_)⟩
  rintro k rfl
  exact List.prefix_refl _

theorem grown_remove (hp : Leading h.fs p d) (hg : Grown h h' (d ++ [name])) :
    Ends (remove w (p ++ [name])) h' (fun _ h'' => Grown h h'' (d ++ [name]))
      fun _ h'' => Grown h h'' (d ++ [name]) := by
  have hp' := hp.mono hg.leads
  refine ends_remove (fun _ => hg) fun l hl e hlocate _ _ _ => ?_
  obtain rfl : d ++ [name] = l := Except.ok.inj ((Fs.locate_concat hp'.leads hp'.isDir).symm.trans hlocate)
  exact hg.below (List.prefix_refl _) (within_removed _ hl [])

theorem grown_removeAll (hp : Leading h.fs p d) (hg : Grown h h' (d ++ [name])) :
    Ends (removeAll w (p ++ [name])) h' (fun _ h'' => Grown h h'' (d ++ [name]))
      fun _ h'' => Grown h h'' (d ++ [name]) := by
  have hp' := hp.mono hg.leads
  have hloc : ∀ {l}, h'.fs.locate (p ++ [name]) = .ok l → d ++ [name] = l := fun hl =>
    Except.ok.inj ((Fs.locate_concat hp'.leads hp'.isDir).symm.trans hl)
  refine ends_removeAll (fun _ => hg) hg (fun l hl errno hlocate _ => ?_)
    fun l hl e hlocate _ _ => ?_
  · obtain rfl := hloc hlocate
    exact hg.below (List.prefix_refl _) (within_removed _ hl _)
  · obtain rfl := hloc hlocate
    exact hg.below (List.prefix_refl _) (within_removed _ hl _)

/-! ## Copying a file -/

/-- The mode of a new entry. -/
def madeMode (w : World) (perm : BitVec 9) (setgid : Bool) : Mode := ⟨masked w perm, false, setgid, false⟩

/-- There is a file with a mode, a time and a content, of whatever owner. -/
def FileAt (h : Host) (l : Loc) (mode : Mode) (mtime : Nat) (content : Bytes) : Prop :=
  ∃ uid gid, h.fs.entry l = some (.file ⟨mode, uid, gid, mtime⟩ content)

theorem FileAt.still {mode : Mode} {mtime : Nat} {content : Bytes} {l : Loc}
    (hf : FileAt h l mode mtime content) (hstill : h.Still h') : FileAt h' l mode mtime content := by
  rw [FileAt, hstill.1]
  exact hf

/-- The time a copy has: that of the source, if the call that sets it works. -/
def Timed (w : World) (p : Path) (mtime time : Nat) : Prop :=
  (w.fails (.chtimes p) = none → time = mtime) ∧
    (w.fails (.chtimes p) ≠ none → ∃ ticks, time = w.clock ticks)

theorem grown_append {mode : Mode} {time : Nat} {content : Bytes} (hname : Named name)
    (hp : Leading h.fs p d) (hg : Grown h h' (d ++ [name]))
    (hfile : FileAt h' (d ++ [name]) mode time content) (bytes : Bytes) :
    Grown h (appendTo w (p ++ [name]) bytes h') (d ++ [name]) ∧
      FileAt (appendTo w (p ++ [name]) bytes h') (d ++ [name]) mode (w.clock h'.ticks)
        (content ++ bytes) := by
  obtain ⟨uid, gid, he⟩ := hfile
  have hp' := hp.mono hg.leads
  have hfollow := Fs.follow_concat hname hp'.leads hp'.isDir he rfl
  refine ⟨hg.changed (List.prefix_refl _) (within_appendTo bytes hfollow), uid, gid, ?_⟩
  rw [entry_appendTo bytes hfollow he, if_pos rfl]

/-- The last steps of `copyFile`. -/
theorem ends_finish {perm : BitVec 9} {content : Bytes} {time : Nat} (info : Entry)
    (hname : Named name) (hp : Leading h.fs p d) (hg : Grown h h' (d ++ [name]))
    (hfile : FileAt h' (d ++ [name]) (madeMode w perm false) time content)
    (htime : ∃ ticks, time = w.clock ticks) :
    Ends (do
        Prog.dropped (chown w (p ++ [name]) (attrOf info).uid (attrOf info).gid)
        Prog.dropped (chtimes w (p ++ [name]) (attrOf info).mtime)) h'
      (fun _ h'' => Grown h h'' (d ++ [name]) ∧ ∃ t, Timed w (p ++ [name]) (attrOf info).mtime t ∧
        FileAt h'' (d ++ [name]) (madeMode w perm false) t content) fun _ _ => False := by
  have hlead : ∀ {h₂}, Grown h h₂ (d ++ [name]) →
      FileAt h₂ (d ++ [name]) (madeMode w perm false) time content →
        h₂.fs.follow (p ++ [name]) = .ok (d ++ [name]) := by
    rintro h₂ hg₂ ⟨uid, gid, he⟩
    have hp₂ := hp.mono hg₂.leads
    exact Fs.follow_concat hname hp₂.leads hp₂.isDir he rfl
  have htimes : ∀ h₂, Grown h h₂ (d ++ [name]) →
      FileAt h₂ (d ++ [name]) (madeMode w perm false) time content →
        Ends (Prog.dropped (chtimes w (p ++ [name]) (attrOf info).mtime)) h₂
          (fun _ h'' => Grown h h'' (d ++ [name]) ∧ ∃ t, Timed w (p ++ [name]) (attrOf info).mtime t ∧
            FileAt h'' (d ++ [name]) (madeMode w perm false) t content) fun _ _ => False := by
    intro h₂ hg₂ hfile₂
    have hfollow := hlead hg₂ hfile₂
    rw [ends_dropped]
    refine ends_change (fun errno herr => ?_) fun l hnone hl => ?_
    · refine ⟨hg₂, time, ⟨fun hnone => ?_, fun _ => htime⟩, hfile₂⟩
      rcases herr with herr | herr
      · rw [hnone] at herr
        cases herr
      · rw [hfollow] at herr
        cases herr
    · obtain rfl : d ++ [name] = l := Except.ok.inj (hfollow.symm.trans hl)
      obtain ⟨uid, gid, he⟩ := hfile₂
      refine ⟨hg₂.changed (List.prefix_refl _) (within_changed _ _ _), (attrOf info).mtime,
        ⟨fun _ => rfl, fun hfails => absurd hnone hfails⟩, uid, gid, ?_⟩
      rw [Host.changed]
      dsimp only [Fs.alter]
      rw [if_pos rfl, he]
      rfl
  rw [ends_bind, ends_dropped]
  refine ends_change (fun errno _ => htimes h' hg hfile) fun l _ hl => ?_
  obtain rfl : d ++ [name] = l := Except.ok.inj ((hlead hg hfile).symm.trans hl)
  obtain ⟨uid, gid, he⟩ := hfile
  refine htimes _ (hg.changed (List.prefix_refl _) (within_changed _ _ _)) ⟨(attrOf info).uid,
    (attrOf info).gid, ?_⟩
  rw [Host.changed]
  dsimp only [Fs.alter]
  rw [if_pos rfl, he]
  rfl

/-- What reading gives does not depend on what was made since. -/
theorem contentAt_grown {l : Loc} (hg : Grown h h' top) (hl : h.fs.entry l ≠ none) :
    contentAt w h'.fs l = contentAt w h.fs l := by
  have hout : ¬ top <+: l := by
    rintro ⟨k, rfl⟩
    exact hl (Fs.none_of_none hg.free)
  unfold contentAt
  cases he : h.fs.entry l with
  | none => exact absurd he hl
  | some e =>
    obtain ⟨e', he', hun⟩ := hg.within.entry_after hout he
    rw [he']
    cases e <;> cases e' <;> simp_all [Entry.untimed]

theorem ends_copyFile {info : Entry} (hname : Named name) (hp : Leading h.fs p d) :
    Ends (copyFile w source (p ++ [name]) info) h
      (fun _ h' => Grown h h' (d ++ [name]) ∧ ∃ l content t, h.fs.follow source = .ok l ∧
        contentAt w h.fs l = .ok content ∧ Timed w (p ++ [name]) (attrOf info).mtime t ∧
        FileAt h' (d ++ [name]) (madeMode w (attrOf info).mode.perm false) t content)
      fun _ h' => Kept h h' (d ++ [name]) := by
  rw [copyFile, ends_bind]
  refine ends_look (fun _ => .inl (.refl h)) fun l h₁ hstill hl => ?_
  have hthere : h.fs.entry l ≠ none := by
    obtain ⟨e, he, -⟩ := Fs.follow_ok hl
    rw [he]
    exact nofun
  rw [ends_bind]
  refine ends_make (fun _ _ => .inl hstill) fun v _ hv => ?_
  obtain ⟨hfollow, rfl, -⟩ := Fs.vacant_concat_ok hv
  have hp₁ : Leading h₁.fs p d := hstill.1 ▸ hp
  obtain rfl : d = v.dir := Except.ok.inj (hp₁.leads.symm.trans hfollow)
  have hg := grown_made (w := w) hstill v (.file ⟨madeMode w (attrOf info).mode.perm false, w.uid,
    newGid w v.attr, w.clock h₁.ticks⟩ [])
  have hfile : FileAt _ _ _ _ _ := ⟨_, _, entry_made_of_not_dir (w := w) (v := v) (e := .file
    ⟨madeMode w (attrOf info).mode.perm false, w.uid, newGid w v.attr, w.clock h₁.ticks⟩ []) rfl⟩
  change Ends _ (h₁.made w v (.file ⟨madeMode w (attrOf info).mode.perm false, w.uid,
    newGid w v.attr, w.clock h₁.ticks⟩ [])) _ _
  generalize h₁.made w v (.file _ []) = h₂ at hg hfile ⊢
  have hundo : ∀ h₃, Grown h h₃ (v.dir ++ [v.name]) →
      Ends (remove w (p ++ [v.name])) h₃ (fun _ h' => Kept h h' (v.dir ++ [v.name]))
        fun _ h' => Kept h h' (v.dir ++ [v.name]) := fun h₃ hg₃ =>
    (grown_remove hp hg₃).mono (fun _ _ => .inr) fun _ _ => .inr
  rw [ends_bind, ends_onFail, ends_bind]
  refine ends_copyTo (fun _ _ => hundo _ hg)
    (fun _ _ _ _ => hundo _ (grown_append hname hp hg hfile _).1) fun content hcontent _ _ => ?_
  obtain ⟨hg₃, hfile₃⟩ := grown_append (w := w) hname hp hg hfile content
  change Ends _ (appendTo w (p ++ [v.name]) content h₂) _ _
  generalize appendTo w (p ++ [v.name]) content h₂ = h₃ at hg₃ hfile₃ ⊢
  rw [ends_bind]
  refine ends_look (fun _ => hundo _ hg₃) fun _ h₄ hstill₄ _ => ?_
  refine ends_look (fun _ => hundo _ (hg₃.still hstill₄)) fun _ h₅ hstill₅ _ => ?_
  have hg₅ := (hg₃.still hstill₄).still hstill₅
  have hfile₅ := (hfile₃.still hstill₄).still hstill₅
  refine (ends_finish info hname hp hg₅ hfile₅ ⟨_, rfl⟩).mono ?_ fun _ _ hfalse =>
    hfalse.elim
  rintro - h₆ ⟨hg₆, t, ht, hfile₆⟩
  exact ⟨hg₆, l, content, t, hl, contentAt_grown hg hthere ▸ hcontent, ht, hfile₆⟩

/-! ## Copying a tree -/

/-- Neither place is in the other. -/
def Apart (s top : Loc) : Prop := ¬ s <+: top ∧ ¬ top <+: s

theorem Apart.concat (hap : Apart s top) (name : String) : Apart (s ++ [name]) (top ++ [name]) := by
  refine ⟨fun h => ?_, fun h => ?_⟩
  · rcases List.prefix_concat_iff.mp ((List.prefix_append s [name]).trans h) with heq | hpre
    · exact hap.2 (heq ▸ List.prefix_append _ _)
    · exact hap.1 hpre
  · rcases List.prefix_concat_iff.mp ((List.prefix_append top [name]).trans h) with heq | hpre
    · exact hap.1 (heq ▸ List.prefix_append _ _)
    · exact hap.2 hpre

theorem apart_siblings {other : String} (hne : other ≠ name) :
    Apart (top ++ [other]) (top ++ [name]) :=
  ⟨fun h => hne (List.cons_prefix_cons.mp ((List.prefix_append_right_inj top).mp h)).1,
    fun h => hne (List.cons_prefix_cons.mp ((List.prefix_append_right_inj top).mp h)).1.symm⟩

/-- What was apart is as it was. -/
theorem Grown.same (hg : Grown h h' top) (hap : Apart s top) (k : Loc) :
    h'.fs.entry (s ++ k) = h.fs.entry (s ++ k) := by
  have hout : ∀ l, s <+: l → ¬ top <+: l := fun l hs htop =>
    (List.prefix_or_prefix_of_prefix hs htop).elim hap.1 hap.2
  refine hg.within.exact _ (hout _ (List.prefix_append s k)) fun l htop heq => hout l ?_ htop
  exact (heq ▸ List.prefix_append s k : s <+: l.dropLast).trans (List.dropLast_prefix l)

/-- What a copy of an entry is, at a location reached by the path. -/
def Image (w : World) (setgid : Bool) (h : Host) (p : Path) (l : Loc) : Entry → Prop
  | .dir attr => ∃ uid gid,
      h.fs.entry l = some (.dir ⟨madeMode w attr.mode.perm setgid, uid, gid, attr.mtime⟩)
  | .file attr content => ∃ t, Timed w p attr.mtime t ∧
      FileAt h l (madeMode w attr.mode.perm false) t content
  | .special attr _ => ∃ t content, FileAt h l (madeMode w attr.mode.perm false) t content
  | .link _ => False

/-- The tree at one place is a copy of that at another. -/
structure CopiedTree (w : World) (setgid : Bool) (h : Host) (s : Loc) (h' : Host) (p : Path)
    (top : Loc) : Prop where
  each : ∀ k e, h.fs.entry (s ++ k) = some e → Image w setgid h' (p ++ k) (top ++ k) e
  none : ∀ k, h.fs.entry (s ++ k) = none → h'.fs.entry (top ++ k) = none

theorem Image.congr {setgid : Bool} {l : Loc} {e : Entry} (hi : Image w setgid h p l e)
    (heq : h'.fs.entry l = h.fs.entry l) : Image w setgid h' p l e := by
  cases e with
  | link target => exact hi
  | _ => simpa only [Image, FileAt, heq] using hi

theorem CopiedTree.congr {setgid : Bool} {h₁ h₁' : Host} (hc : CopiedTree w setgid h s h' p top)
    (hsource : ∀ k, h₁.fs.entry (s ++ k) = h.fs.entry (s ++ k))
    (htop : ∀ k, h₁'.fs.entry (top ++ k) = h'.fs.entry (top ++ k)) :
    CopiedTree w setgid h₁ s h₁' p top := by
  refine ⟨fun k e he => (hc.each k e ?_).congr (htop k), fun k hk => ?_⟩
  · rw [← hsource, he]
  · rw [htop]
    exact hc.none k (by rw [← hsource, hk])

/-- How far the entries of a directory have been copied. -/
structure Progress (w : World) (h : Host) (s : Loc) (p : Path) (top : Loc) (mode : Mode)
    (copied : Prop) (done : List String) (h' : Host) : Prop where
  grown : Grown h h' top
  dir : ∃ uid gid time, h'.fs.entry top = some (.dir ⟨mode, uid, gid, time⟩)
  each : copied → ∀ name ∈ done,
    CopiedTree w mode.setgid h (s ++ [name]) h' (p ++ [name]) (top ++ [name])
  rest : ∀ name ∉ done, h'.fs.entry (top ++ [name]) = none

/-- What a function that copies the entries of a directory does with each of them. -/
def Copies (w : World) (source : Path) (s : Loc) (p : Path) (top : Loc) (mode : Mode)
    (copy : Path → Path → Entry → Sys Unit) : Prop :=
  ∀ name info h, Named name → Leading h.fs p top →
    (∃ uid gid time, h.fs.entry top = some (.dir ⟨mode, uid, gid, time⟩)) →
      Ends (copy (source ++ [name]) (p ++ [name]) info) h
        (fun _ h' => Grown h h' (top ++ [name]) ∧
          (h.fs.follow (source ++ [name]) = .ok (s ++ [name]) →
            h.fs.entry (s ++ [name]) = some info → Apart (s ++ [name]) (top ++ [name]) →
              CopiedTree w mode.setgid h (s ++ [name]) h' (p ++ [name]) (top ++ [name])))
        fun _ h' => Kept h h' (top ++ [name])

theorem Kept.grown {k : Loc} (hg : Grown h h' top) (hk : top <+: k) (hkept : Kept h' h'' k) :
    Grown h h'' top := by
  rcases hkept with hstill | hg'
  · exact hg.still hstill
  · exact hg.below hk hg'.within

/-- One more entry was copied. -/
theorem Progress.step {mode : Mode} {copied : Prop} {done : List String} {h₂ : Host}
    (hprog : Progress w h s p top mode copied done h') (hap : copied → Apart s top)
    (hg : Grown h' h₂ (top ++ [name]))
    (hcopied : copied →
      CopiedTree w mode.setgid h' (s ++ [name]) h₂ (p ++ [name]) (top ++ [name])) :
    Progress w h s p top mode copied (done ++ [name]) h₂ := by
  refine ⟨hprog.grown.below (List.prefix_append _ _) hg.within, ?_, fun hc other hother => ?_,
    fun other hother => ?_⟩
  · obtain ⟨uid, gid, time, hdir⟩ := hprog.dir
    have hout : ¬ top ++ [name] <+: top := fun h => absurd h.length_le (by simp)
    obtain ⟨e, he, hun⟩ := hg.within.entry_after hout hdir
    cases e with
    | dir attr =>
      obtain rfl : attr.mode = mode := (Attr.mk.inj (Entry.dir.inj hun)).1
      exact ⟨attr.uid, attr.gid, attr.mtime, he⟩
    | _ => cases hun
  · by_cases hname : other = name
    · subst hname
      refine (hcopied hc).congr (fun k => ?_) fun _ => rfl
      rw [List.append_assoc]
      exact (hprog.grown.same (hap hc) _).symm
    · have hdone : other ∈ done := by simpa [hname] using hother
      exact (hprog.each hc other hdone).congr (fun _ => rfl) (hg.same (apart_siblings hname))
  · have hname : other ≠ name := fun heq =>
      hother (heq ▸ List.mem_append_right _ (List.mem_singleton_self _))
    have hdone : other ∉ done := fun hmem => hother (List.mem_append_left _ hmem)
    rw [hg.within.none_iff (apart_siblings hname).2]
    exact hprog.rest other hdone

theorem Progress.still {mode : Mode} {copied : Prop} {done : List String} {h₂ : Host}
    (hprog : Progress w h s p top mode copied done h') (hstill : h'.Still h₂) :
    Progress w h s p top mode copied done h₂ where
  grown := hprog.grown.still hstill
  dir := by
    rw [hstill.1]
    exact hprog.dir
  each hc child hchild :=
    (hprog.each hc child hchild).congr (fun _ => rfl) fun _ => by rw [hstill.1]
  rest := by
    rw [hstill.1]
    exact hprog.rest

theorem Progress.leading {mode : Mode} {copied : Prop} {done : List String}
    (hprog : Progress w h s (p ++ [name]) (d ++ [name]) mode copied done h') (hname : Named name)
    (hp : Leading h.fs p d) : Leading h'.fs (p ++ [name]) (d ++ [name]) := by
  obtain ⟨uid, gid, time, hdir⟩ := hprog.dir
  exact (hp.mono hprog.grown.leads).concat hname ⟨_, hdir⟩

/-- The source of a copy is read where its path leads, and not written. -/
structure Sourced (fs : Fs) (source : Path) (s top : Loc) : Prop extends Leading fs source s where
  apart : Apart s top

theorem ends_copyEntries {copy : Path → Path → Entry → Sys Unit} {mode : Mode} {rest : List String}
    (hcopy : Copies w source s (p ++ [name]) (d ++ [name]) mode copy) (hname : Named name)
    (hp : Leading h.fs p d) (done : List String) (h' : Host)
    (hprog : Progress w h s (p ++ [name]) (d ++ [name]) mode (Sourced h.fs source s (d ++ [name]))
      done h') :
    Ends (copyEntries w copy source (p ++ [name]) rest) h'
      (fun _ => Progress w h s (p ++ [name]) (d ++ [name]) mode
        (Sourced h.fs source s (d ++ [name])) (done ++ rest))
      fun _ h'' => Grown h h'' (d ++ [name]) := by
  induction rest generalizing done h' with
  | nil => exact ends_pure.mpr (by rwa [List.append_nil])
  | cons child rest ih =>
    rw [copyEntries, ends_bind, ends_onFail, ends_bind]
    have hundo : ∀ h₂, Grown h h₂ (d ++ [name]) →
        Ends (removeAll w (p ++ [name])) h₂ (fun _ h'' => Grown h h'' (d ++ [name]))
          fun _ h'' => Grown h h'' (d ++ [name]) := fun h₂ hg => grown_removeAll hp hg
    refine ends_look (fun _ => hundo _ hprog.grown) fun info h₂ hstill hinfo => ?_
    have hprog₂ := hprog.still hstill
    rw [ends_bind, ends_check]
    refine ⟨fun _ => hundo _ hprog₂.grown, fun hlink => ?_⟩
    obtain ⟨l, hlocate, hentry⟩ := bind_eq_ok hinfo
    obtain ⟨k, hk, hkdir, rfl⟩ := Fs.locate_concat_ok hlocate
    have hentry := entryAt_eq_ok hentry
    have hchild : Named child := (Fs.valid_of_mem hentry child (by simp)).1.1
    refine (hcopy child info h₂ hchild (hprog₂.leading hname hp) hprog₂.dir).mono ?_ fun _ h₃ hkept =>
      hundo _ (hkept.grown hprog₂.grown (List.prefix_append _ _))
    rintro - h₃ ⟨hg, hcopied⟩
    have hstep := hprog₂.step (fun hs => hs.apart) hg fun hs => ?_
    · have hmore := ih (done ++ [child]) h₃ hstep
      rwa [List.append_assoc] at hmore
    · have hlead := hs.toLeading.mono hprog.grown.leads
      obtain rfl : s = k := Except.ok.inj (hlead.leads.symm.trans hk)
      rw [hstill.1] at hcopied
      exact hcopied (Fs.follow_concat hchild hk hkdir hentry (Bool.eq_false_iff.mpr hlink)) hentry
        (hs.apart.concat child)

/-- The directory that was just made for a copy. -/
theorem progress_made {copied : Prop} (v : h.fs.Vacant) (attr : Attr) :
    Progress w h s p (v.dir ++ [v.name]) attr.mode copied [] (h.made w v (.dir attr)) := by
  refine ⟨grown_made (.refl h) v _, ?_, fun _ => nofun, fun child _ => ?_⟩
  · obtain ⟨e, he, hun⟩ := Option.map_eq_some_iff.mp
      (entry_made (w := w) (v := v) (e := .dir attr))
    cases e with
    | dir attr' =>
      have hmode : attr'.mode = attr.mode := (Attr.mk.inj (Entry.dir.inj hun)).1
      exact ⟨attr'.uid, attr'.gid, attr'.mtime, hmode ▸ he⟩
    | _ => cases hun
  · rw [(within_made v _).none_iff (by simp [Fs.Vacant.loc])]
    exact Fs.none_of_none v.free

/-- All entries of a directory were copied and it got its time. -/
theorem Progress.tree {mode : Mode} {copied : Prop} {attr : Attr} {names : List String} {h₂ : Host}
    (hprog : Progress w h s p top mode copied names h') (hc : copied)
    (hnames : ∀ child, child ∈ names ↔ ∃ e, h.fs.entry (s ++ [child]) = some e)
    (hentry : h.fs.entry s = some (.dir attr))
    (hmode : mode = madeMode w attr.mode.perm mode.setgid)
    (hdir : ∃ uid gid, h₂.fs.entry top = some (.dir ⟨mode, uid, gid, attr.mtime⟩))
    (hsame : ∀ child k, h₂.fs.entry (top ++ child :: k) = h'.fs.entry (top ++ child :: k)) :
    CopiedTree w mode.setgid h s h₂ p top := by
  refine ⟨fun k e he => ?_, fun k hk => ?_⟩
  · cases k with
    | nil =>
      rw [List.append_nil] at he ⊢
      rw [hentry] at he
      cases he
      obtain ⟨uid, gid, hdir⟩ := hdir
      exact ⟨uid, gid, by rw [List.append_nil, ← hmode, hdir]⟩
    | cons child k =>
      have hsplit : ∀ l : Loc, l ++ child :: k = (l ++ [child]) ++ k := by simp
      have hmem : child ∈ names := by
        rw [hnames]
        rw [hsplit] at he
        by_cases hnil : k = []
        · exact ⟨e, by rwa [hnil, List.append_nil] at he⟩
        · exact (Fs.dir_of_below hnil he).imp' _ fun _ => id
      have heach := (hprog.each hc child hmem).each k e (by rwa [← hsplit])
      rw [← hsplit, ← hsplit] at heach
      exact heach.congr (hsame child k)
  · cases k with
    | nil =>
      rw [List.append_nil, hentry] at hk
      cases hk
    | cons child k =>
      have hsplit : ∀ l : Loc, l ++ child :: k = (l ++ [child]) ++ k := by simp
      rw [hsame, hsplit]
      by_cases hmem : child ∈ names
      · exact (hprog.each hc child hmem).none k (by rwa [← hsplit])
      · exact Fs.none_of_none (hprog.rest child hmem)

/-- The owner or the time of the directory is set. -/
theorem Progress.changed {mode : Mode} {copied : Prop} {done : List String} {f : Entry → Entry}
    {hf : ∀ attr, ∃ attr', f (.dir attr) = .dir attr'}
    (hprog : Progress w h s p top mode copied done h')
    (hkeep : ∀ attr, ∃ uid gid time, f (.dir attr) = .dir ⟨attr.mode, uid, gid, time⟩) :
    Progress w h s p top mode copied done (h'.changed top f hf) := by
  have hbelow : ∀ child k, (h'.changed top f hf).fs.entry (top ++ [child] ++ k) =
      h'.fs.entry (top ++ [child] ++ k) := fun child k => if_neg (by simp)
  refine ⟨hprog.grown.changed (List.prefix_refl _) (within_changed _ _ _), ?_,
    fun hc child hchild => (hprog.each hc child hchild).congr (fun _ => rfl) (hbelow child),
    fun child hchild => ?_⟩
  · obtain ⟨uid, gid, time, hdir⟩ := hprog.dir
    obtain ⟨uid', gid', time', hnew⟩ := hkeep ⟨mode, uid, gid, time⟩
    refine ⟨uid', gid', time', ?_⟩
    rw [Host.changed]
    dsimp only [Fs.alter]
    rw [if_pos rfl, hdir, Option.map_some, hnew]
  · have hnone := hbelow child []
    rw [List.append_nil] at hnone
    rw [hnone]
    exact hprog.rest child hchild

/-- A copy of anything but a directory. -/
theorem copiedTree_leaf {setgid : Bool} {info : Entry} (hentry : h.fs.entry s = some info)
    (hdir : info.isDir = false) (himage : Image w setgid h' p top info) :
    CopiedTree w setgid h s h' p top := by
  have hnone : ∀ k, k ≠ [] → h.fs.entry (s ++ k) = none := fun k hk =>
    Fs.none_of_below (fun attr heq => by
      rw [hentry] at heq
      cases heq
      cases hdir) hk
  refine ⟨fun k e he => ?_, fun k hk => ?_⟩
  · by_cases hnil : k = []
    · rw [hnil, List.append_nil] at he
      rw [hentry] at he
      cases he
      rwa [hnil, List.append_nil, List.append_nil]
    · rw [hnone k hnil] at he
      cases he
  · refine Fs.none_of_below (fun attr heq => ?_) fun hnil => ?_
    · cases info with
      | dir attr' => cases hdir
      | link target => exact himage
      | file attr' content =>
        obtain ⟨t, -, uid, gid, hfile⟩ := himage
        rw [hfile] at heq
        cases heq
      | special attr' kind =>
        obtain ⟨t, content, uid, gid, hfile⟩ := himage
        rw [hfile] at heq
        cases heq
    · rw [hnil, List.append_nil, hentry] at hk
      cases hk

/-- A directory is copied when its entries are. -/
theorem ends_copyDir (depth : Nat) {attr attr' : Attr} (hname : Named name) (hp : Leading h.fs p d)
    (hd : h.fs.entry d = some (.dir attr))
    (hcopy : ∀ mode, Copies w source s (p ++ [name]) (d ++ [name]) mode (copyPath w depth)) :
    Ends (copyPath w (depth + 1) source (p ++ [name]) (.dir attr')) h
      (fun _ h' => Grown h h' (d ++ [name]) ∧
        (h.fs.follow source = .ok s → h.fs.entry s = some (.dir attr') → Apart s (d ++ [name]) →
          CopiedTree w attr.mode.setgid h s h' (p ++ [name]) (d ++ [name])))
      fun _ h' => Kept h h' (d ++ [name]) := by
  rw [copyPath, ends_bind, ends_check]
  refine ⟨nofun, fun _ => ?_⟩
  rw [if_pos (by rfl), ends_bind]
  refine ends_make (fun _ _ => .inl (.refl h)) fun v _ hv => ?_
  obtain ⟨hfollow, rfl, -⟩ := Fs.vacant_concat_ok hv
  obtain rfl : d = v.dir := Except.ok.inj (hp.leads.symm.trans hfollow)
  obtain rfl : attr = v.attr := Entry.dir.inj (Option.some.inj (hd.symm.trans v.isDir))
  have hprog : Progress w h s (p ++ [v.name]) (v.dir ++ [v.name]) _
      (Sourced h.fs source s (v.dir ++ [v.name])) [] _ := progress_made v
    ⟨madeMode w attr'.mode.perm v.attr.mode.setgid, w.uid, newGid w v.attr, w.clock h.ticks⟩
  change Ends _ (h.made w v (.dir ⟨madeMode w attr'.mode.perm v.attr.mode.setgid, w.uid,
    newGid w v.attr, w.clock h.ticks⟩)) _ _
  generalize h.made w v (.dir _) = h₁ at hprog ⊢
  rw [ends_bind, ends_onFail]
  refine ends_readDir (fun _ => ?_) fun l attr₁ h₂ hstill hread _ => ?_
  · exact (grown_remove hp hprog.grown).mono (fun _ _ => .inr) fun _ _ => .inr
  · generalize hnames : h₁.fs.names l = names
    rw [ends_bind]
    refine (ends_copyEntries (hcopy _) hname hp [] h₂ (hprog.still hstill)).mono ?_
      fun _ _ => .inr
    rintro - h₃ hprog₃
    rw [List.nil_append] at hprog₃
    have hlast : ∀ h₄, Progress w h s (p ++ [v.name]) (v.dir ++ [v.name])
        (madeMode w attr'.mode.perm v.attr.mode.setgid)
        (Sourced h.fs source s (v.dir ++ [v.name])) names h₄ →
          Ends (chtimes w (p ++ [v.name]) (attrOf (.dir attr')).mtime) h₄
            (fun _ h' => Grown h h' (v.dir ++ [v.name]) ∧
              (h.fs.follow source = .ok s → h.fs.entry s = some (.dir attr') →
                Apart s (v.dir ++ [v.name]) → CopiedTree w v.attr.mode.setgid h s h'
                  (p ++ [v.name]) (v.dir ++ [v.name]))) fun _ h' => Kept h h' (v.dir ++ [v.name]) := by
      intro h₄ hprog₄
      refine ends_change (fun _ _ => .inr hprog₄.grown) fun l _ hl => ?_
      obtain rfl : v.dir ++ [v.name] = l :=
        Except.ok.inj ((hprog₄.leading hname hp).leads.symm.trans hl)
      refine ⟨hprog₄.grown.changed (List.prefix_refl _) (within_changed _ _ _),
        fun hsource hentry hap => ?_⟩
      have hs : Sourced h.fs source s (v.dir ++ [v.name]) := ⟨⟨hsource, _, hentry⟩, hap⟩
      obtain ⟨uid, gid, time, hdir⟩ := hprog₄.dir
      refine hprog₄.tree hs (fun child => ?_) hentry rfl ⟨uid, gid, ?_⟩ fun child k =>
        if_neg (by simp)
      · have hlead := hs.toLeading.mono hprog.grown.leads
        obtain rfl : s = l := Except.ok.inj (hlead.leads.symm.trans hread)
        rw [← hnames, Fs.mem_names, hprog.grown.same hap]
      · rw [Host.changed]
        dsimp only [Fs.alter]
        rw [if_pos rfl, hdir]
        rfl
    rw [ends_bind, ends_dropped]
    refine ends_change (fun _ _ => hlast h₃ hprog₃) fun l _ hl => hlast _ ?_
    obtain rfl : v.dir ++ [v.name] = l :=
      Except.ok.inj ((hprog₃.leading hname hp).leads.symm.trans hl)
    exact hprog₃.changed fun attr => ⟨_, _, _, rfl⟩

/-- Copying leaves a copy, or fails; nothing else changes. -/
theorem ends_copyPath (depth : Nat) {source p : Path} {name : String} {s d : Loc} {info : Entry}
    {attr : Attr} (h : Host) (hname : Named name) (hp : Leading h.fs p d)
    (hd : h.fs.entry d = some (.dir attr)) :
    Ends (copyPath w depth source (p ++ [name]) info) h
      (fun _ h' => Grown h h' (d ++ [name]) ∧
        (h.fs.follow source = .ok s → h.fs.entry s = some info → Apart s (d ++ [name]) →
          CopiedTree w attr.mode.setgid h s h' (p ++ [name]) (d ++ [name])))
      fun _ h' => Kept h h' (d ++ [name]) := by
  induction depth generalizing source p name s d info attr h with
  | zero => exact ends_fail.mpr (.inl (.refl h))
  | succ depth ih =>
    by_cases hdir : info.isDir = true
    · obtain ⟨attr', rfl⟩ : ∃ attr', info = .dir attr' := by
        cases info <;> first | exact ⟨_, rfl⟩ | cases hdir
      exact ends_copyDir depth hname hp hd fun mode child e h₁ hchild hlead ⟨_, _, _, hdir⟩ =>
        ih h₁ hchild hlead hdir
    · have hleaf : info.isDir = false := Bool.eq_false_iff.mpr hdir
      rw [copyPath, ends_bind, ends_check, if_neg hdir]
      refine ⟨fun _ => .inl (.refl h), fun hlink => ?_⟩
      refine (ends_copyFile hname hp).mono ?_ fun _ _ hkept => hkept
      rintro - h' ⟨hg, l, content, t, hl, hcontent, ht, hfile⟩
      refine ⟨hg, fun hs hinfo hap => copiedTree_leaf hinfo hleaf ?_⟩
      obtain rfl : s = l := Except.ok.inj (hs.symm.trans hl)
      cases info with
      | dir attr' => cases hleaf
      | link target => exact absurd rfl hlink
      | file attr' content' =>
        obtain rfl : content' = content := by
          rw [contentAt, hinfo] at hcontent
          exact Except.ok.inj hcontent
        exact ⟨t, ht, hfile⟩
      | special attr' kind => exact ⟨t, content, hfile⟩

end LukePanel.Files.CopyTree
