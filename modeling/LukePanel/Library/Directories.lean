import LukePanel.Library.PathWalks
import LukePanel.Library.Syscalls

/-! # Making directories

What `os.MkdirAll` leaves: nothing new, or new directories below one that was there. -/
namespace LukePanel.Library.Syscalls
open LukePanel.Library.Attempt LukePanel.Library.FileSystem LukePanel.Library.SlashPath

variable {w : World} {h h' : Host}

/-! ## Lookups before and after a call -/

theorem turn_of_untimed {e e' : Entry} (h : e'.untimed = e.untimed) : e'.turn = e.turn := by
  cases e <;> cases e' <;> simp_all [Entry.untimed, Entry.turn]

theorem isDir_of_untimed {e e' : Entry} (h : e'.untimed = e.untimed) : e'.isDir = e.isDir := by
  cases e <;> cases e' <;> simp_all [Entry.untimed, Entry.isDir]

namespace Host.Within

variable {S : Loc → Prop}

/-- Lookups lead where they did when nothing was there that changed. -/
theorem leads (h₁ : Within S h h') (hfree : ∀ l, S l → h.fs.entry l = none) :
    Fs.Leads h.fs h'.fs := by
  intro l e he
  have hout : ¬ S l := fun hl => by
    rw [hfree l hl] at he
    cases he
  obtain ⟨e', he', hun⟩ := h₁.entry_after hout he
  exact ⟨e', he', turn_of_untimed hun⟩

theorem exists_iff (h₁ : Within S h h') {l : Loc} (hl : ¬ S l) :
    (∃ e, h'.fs.entry l = some e) ↔ ∃ e, h.fs.entry l = some e := by
  rw [← Option.isSome_iff_exists, ← Option.isSome_iff_exists, Option.isSome_iff_ne_none,
    Option.isSome_iff_ne_none, ne_eq, h₁.none_iff hl]

theorem isDirAt (h₁ : Within S h h') {l : Loc} (hl : ¬ S l) (hdir : h.fs.IsDirAt l) :
    h'.fs.IsDirAt l := h₁.dir hl hdir

end Host.Within

theorem leads_made {v : h.fs.Vacant} {e : Entry} : Fs.Leads h.fs (h.made w v e).fs :=
  (within_made v e).leads fun _ hl => hl ▸ v.free

/-- Appending to a file changes no lookup. -/
theorem leads_appendTo {p : Path} {l : Loc} {attr : Attr} {content : Bytes} (bytes : Bytes)
    (hp : h.fs.follow p = .ok l) (hfile : h.fs.entry l = some (.file attr content)) :
    Fs.Leads h.fs (appendTo w p bytes h).fs := by
  intro k e he
  rw [entry_appendTo bytes hp hfile]
  split
  · rename_i hk
    rw [hk, hfile] at he
    cases he
    exact ⟨_, rfl, rfl⟩
  · exact ⟨e, he, rfl⟩

theorem entry_made {v : h.fs.Vacant} {e : Entry} :
    ((h.made w v e).fs.entry v.loc).map Entry.untimed = some e.untimed := by
  rw [Host.made, untimed_stamp]
  change Option.map _ (if v.loc = v.loc then some e else _) = _
  rw [if_pos rfl]
  rfl

theorem entry_made_of_not_dir {v : h.fs.Vacant} {e : Entry} (hdir : e.isDir = false) :
    (h.made w v e).fs.entry v.loc = some e := by
  obtain ⟨e', he', hun⟩ := Option.map_eq_some_iff.mp (entry_made (w := w) (v := v) (e := e))
  rw [he', eq_of_untimed hun hdir]

theorem isDirAt_made {v : h.fs.Vacant} {attr : Attr} :
    (h.made w v (.dir attr)).fs.IsDirAt v.loc := by
  obtain ⟨e, he, hun⟩ := Option.map_eq_some_iff.mp (entry_made (w := w) (v := v) (e := .dir attr))
  cases e <;> first | cases hun | exact ⟨_, he⟩

/-- What is there after a removal was there before. -/
theorem entry_removed {l k : Loc} {hl : l ≠ []} {left : List Loc} {e : Entry}
    (he : (removed w h l hl left).fs.entry k = some e) :
    ∃ e', h.fs.entry k = some e' ∧ e'.untimed = e.untimed := by
  have hun := untimed_stamp (h.fs.erase l hl left) l.dropLast k (w.clock h.ticks)
  change ((removed w h l hl left).fs.entry k).map Entry.untimed = _ at hun
  rw [he] at hun
  obtain ⟨e', he', heq⟩ := Option.map_eq_some_iff.mp hun.symm
  dsimp only [Fs.erase] at he'
  split at he'
  · cases he'
  · exact ⟨e', he', heq⟩

theorem leads_removed {l : Loc} {hl : l ≠ []} {left : List Loc} :
    Fs.Leads (removed w h l hl left).fs h.fs := by
  intro k e he
  obtain ⟨e', he', hun⟩ := entry_removed he
  exact ⟨e', he', turn_of_untimed hun⟩

/-- Nothing is below a file. -/
theorem not_below_file {fs : Fs} {l k : Loc} {attr : Attr} {content : Bytes} {e : Entry}
    (hfile : fs.entry l = some (.file attr content)) (he : fs.entry k = some e) (hk : k ≠ l) :
    ¬ l <+: k := by
  rintro ⟨below, rfl⟩
  by_cases hnil : below = []
  · exact hk (by rw [hnil, List.append_nil])
  · obtain ⟨attr', hdir⟩ := Fs.dir_of_below hnil he
    cases hfile.symm.trans hdir

/-- Lookups that do not end at a removed file end where they did. -/
theorem leadsTo_removed {l k : Loc} (hl : l ≠ []) {attr : Attr} {content : Bytes}
    (hfile : h.fs.entry l = some (.file attr content)) (hk : k ≠ l) :
    Fs.LeadsTo h.fs (removed w h l hl []).fs k := by
  intro k' e he hpassed
  have hne : k' ≠ l := by
    rintro rfl
    obtain rfl := Option.some.inj (hfile.symm.trans he)
    exact hpassed.elim (fun hturn => hturn rfl) fun heq => hk heq.symm
  obtain ⟨e', he', hun⟩ := (within_removed (w := w) l hl []).entry_after
    (not_below_file hfile he hne) he
  exact ⟨e', he', turn_of_untimed hun⟩

/-- Nothing is left at the place. -/
theorem removed_here {l : Loc} (hl : l ≠ []) : (removed w h l hl []).fs.entry l = none := by
  have hne : l ≠ l.dropLast := fun heq => by
    have hlength := congrArg List.length heq
    rw [List.length_dropLast] at hlength
    have := List.length_pos_of_ne_nil hl
    omega
  rw [removed, entry_stamp_of_ne hne]
  exact if_pos ⟨List.prefix_refl l, fun _ hs => absurd hs List.not_mem_nil⟩

/-! ## Several directories at once -/

/-- The directories of a path that were missing were made, or the first of them: at `top` and below
it. -/
structure NewDirs (h h' : Host) (p : Path) (top : Loc) : Prop where
  free : h.fs.entry top = none
  place : ∃ before name after d, p = before ++ name :: after ∧ h.fs.follow before = .ok d ∧
    h.fs.IsDirAt d ∧ top = d ++ [name]
  within : h.Within (top <+: ·) h'
  dirs : ∀ l e, top <+: l → h'.fs.entry l = some e → e.isDir = true

theorem NewDirs.leads {p : Path} {top : Loc} (h₁ : NewDirs h h' p top) : Fs.Leads h.fs h'.fs :=
  h₁.within.leads fun _ ⟨_, hk⟩ => hk ▸ Fs.none_of_none h₁.free

/-- The path leads to one of the new directories, if it leads anywhere. -/
theorem NewDirs.follow {p : Path} {top l : Loc} (h₁ : NewDirs h h' p top)
    (hp : ∀ part ∈ p, Named part) (hl : h'.fs.follow p = .ok l) : top <+: l := by
  obtain ⟨before, part, after, d, rfl, hd, hdir, rfl⟩ := h₁.place
  obtain ⟨k, hk⟩ := Fs.walk_append (part :: after) (Fs.follow_mono h₁.leads hd)
    (h₁.leads.isDirAt hdir)
  rw [Fs.follow, hk] at hl
  have hloc := Fs.walkFrom_dirs (fun other hother => hp other (List.mem_append_right _ hother))
    (fun below e hne hbelow he => h₁.dirs _ e ?_ he) hl
  · exact ⟨after, by rw [hloc, List.append_assoc, List.singleton_append]⟩
  · cases below with
    | nil => exact absurd rfl hne
    | cons first more =>
      rw [(List.cons_prefix_cons.mp hbelow).1]
      exact ⟨more, by simp⟩

/-- New directories of a path that goes on from a directory are below it. -/
theorem NewDirs.top_below {p rest : Path} {d top : Loc} (h₁ : NewDirs h h' (p ++ rest) top)
    (hp : Leading h.fs p d) (hrest : ∀ part ∈ p ++ rest, Named part)
    (hlinks : ∀ k e, k ≠ [] → k <+: rest → h.fs.entry (d ++ k) = some e → e.isLink = false) :
    ∃ k, k ≠ [] ∧ k <+: rest ∧ top = d ++ k := by
  obtain ⟨before, name, after, d', hpath, hbefore, hdir, rfl⟩ := h₁.place
  have hfree := h₁.free
  rcases List.append_eq_append_iff.mp hpath with ⟨more, rfl, hafter⟩ | ⟨more, hp', hmore⟩
  · have hloc := hp.follow_linkless
      (fun part hpart => hrest part (by
        rw [hafter, ← List.append_assoc]
        exact List.mem_append_left _ (List.mem_append_right _ hpart)))
      (fun k e hk hpre he => hlinks k e hk (hpre.trans ⟨_, hafter.symm⟩) he) hbefore
    exact ⟨more ++ [name], by simp, ⟨after, by simp [hafter]⟩, by rw [hloc, List.append_assoc]⟩
  · cases more with
    | nil =>
      rw [List.append_nil] at hp'
      subst hp'
      obtain rfl : d = d' := Except.ok.inj (hp.leads.symm.trans hbefore)
      exact ⟨[name], by simp, ⟨after, by simpa using hmore⟩, rfl⟩
    | cons first more =>
      obtain ⟨rfl, -⟩ := List.cons.inj hmore
      have hname : Named name := hrest name (by simp [hp'])
      have hleads := hp.leads
      rw [hp', show before ++ name :: more = (before ++ [name]) ++ more by simp] at hleads
      by_cases hnil : more = []
      · rw [hnil, List.append_nil, Fs.follow_concat_none hname hbefore hdir hfree] at hleads
        cases hleads
      · obtain ⟨d'', hd'', -⟩ := Fs.walk_append_ok h.fs.root hnil hleads
        change h.fs.follow (before ++ [name]) = .ok d'' at hd''
        rw [Fs.follow_concat_none hname hbefore hdir hfree] at hd''
        cases hd''

theorem NewDirs.not_leads {p : Path} {top l : Loc} (h₁ : NewDirs h h' p top)
    (hp : ∀ part ∈ p, Named part) : h.fs.follow p ≠ .ok l := by
  obtain ⟨before, name, after, d, rfl, hd, hdir, rfl⟩ := h₁.place
  have hname : Named name := hp name (by simp)
  intro hl
  obtain ⟨k, hk⟩ : ∃ k, h.fs.follow (before ++ [name]) = .ok k := by
    by_cases hnil : after = []
    · exact ⟨l, by rw [← hl, hnil]⟩
    · rw [show before ++ name :: after = (before ++ [name]) ++ after by simp] at hl
      obtain ⟨k, hk, -⟩ := Fs.walk_append_ok h.fs.root hnil hl
      exact ⟨k, hk⟩
  rw [Fs.follow_concat_none hname hd hdir h₁.free] at hk
  cases hk

/-- Nothing or some of the directories were made. -/
def Prepared (h h' : Host) (p : Path) : Prop := h.Still h' ∨ ∃ top, NewDirs h h' p top

/-- The directories of a path are there. -/
structure MadeAll (h h' : Host) (p : Path) (l : Loc) : Prop where
  leads : h'.fs.follow p = .ok l
  isDir : h'.fs.IsDirAt l
  how : h.Still h' ∨ ∃ top, NewDirs h h' p top ∧ top <+: l ∧ ∀ x, h'.fs.entry (l ++ [x]) = none

theorem MadeAll.prepared {p : Path} {l : Loc} (h₁ : MadeAll h h' p l) : Prepared h h' p :=
  h₁.how.imp_right fun ⟨top, hnew, _⟩ => ⟨top, hnew⟩

/-- Nothing is made where the path leads somewhere. -/
theorem Prepared.still_of_leads {p : Path} {l : Loc} (h₁ : Prepared h h' p)
    (hp : ∀ part ∈ p, Named part) (hl : h.fs.follow p = .ok l) : h.Still h' :=
  h₁.resolve_right fun ⟨_, hnew⟩ => hnew.not_leads hp hl

theorem NewDirs.still {h₂ : Host} {p : Path} {top : Loc} (h₁ : NewDirs h h' p top)
    (h₁' : h'.Still h₂) : NewDirs h h₂ p top where
  free := h₁.free
  place := h₁.place
  within := h₁.within.trans (.of_eq h₁'.1 h₁'.2)
  dirs := by
    rw [h₁'.1]
    exact h₁.dirs

theorem Prepared.still {h₂ : Host} {p : Path} (h₁ : Prepared h h' p) (h₁' : h'.Still h₂) :
    Prepared h h₂ p :=
  h₁.imp (fun hstill => hstill.trans h₁') fun ⟨top, hnew⟩ => ⟨top, hnew.still h₁'⟩

theorem NewDirs.after {h₀ : Host} {p : Path} {top : Loc} (h₁ : NewDirs h h' p top)
    (h₁' : h₀.Still h) : NewDirs h₀ h' p top where
  free := h₁'.1 ▸ h₁.free
  place := h₁'.1 ▸ h₁.place
  within := (Host.Within.of_eq h₁'.1 h₁'.2).trans h₁.within
  dirs := h₁.dirs

theorem Prepared.after {h₀ : Host} {p : Path} (h₁ : Prepared h h' p) (h₁' : h₀.Still h) :
    Prepared h₀ h' p :=
  h₁.imp h₁'.trans fun ⟨top, hnew⟩ => ⟨top, hnew.after h₁'⟩

theorem MadeAll.after {h₀ : Host} {p : Path} {l : Loc} (h₁ : MadeAll h h' p l)
    (h₁' : h₀.Still h) : MadeAll h₀ h' p l where
  leads := h₁.leads
  isDir := h₁.isDir
  how := h₁.how.imp h₁'.trans fun ⟨top, hnew, hrest⟩ => ⟨top, hnew.after h₁', hrest⟩

theorem MadeAll.still {h₂ : Host} {p : Path} {l : Loc} (h₁ : MadeAll h h' p l)
    (h₁' : h'.Still h₂) : MadeAll h h₂ p l := by
  have hfs : h₂.fs = h'.fs := h₁'.1
  refine ⟨hfs ▸ h₁.leads, hfs ▸ h₁.isDir, h₁.how.imp (fun hstill => hstill.trans h₁') ?_⟩
  rintro ⟨top, hnew, htop, hempty⟩
  exact ⟨top, hnew.still h₁', htop, hfs ▸ hempty⟩

theorem NewDirs.concat {p : Path} {top : Loc} (h₁ : NewDirs h h' p top) (name : String) :
    NewDirs h h' (p ++ [name]) top := by
  obtain ⟨before, part, after, d, hp, hd, hdir, htop⟩ := h₁.place
  exact { h₁ with place := ⟨before, part, after ++ [name], d, by simp [hp], hd, hdir, htop⟩ }

theorem Prepared.concat {p : Path} (h₁ : Prepared h h' p) (name : String) :
    Prepared h h' (p ++ [name]) :=
  h₁.imp_right fun ⟨top, hnew⟩ => ⟨top, hnew.concat name⟩

/-- One more directory below those that are there. -/
theorem MadeAll.made {p : Path} {l : Loc} {name : String} {attr : Attr} {v : h'.fs.Vacant}
    (h₁ : MadeAll h h' p l) (hname : Named name) (hv : h'.fs.vacant (p ++ [name]) = .ok v) :
    MadeAll h (h'.made w v (.dir attr)) (p ++ [name]) v.loc := by
  obtain ⟨hfollow, -, hloc⟩ := Fs.vacant_concat_ok hv
  obtain rfl : l = v.dir := Except.ok.inj (h₁.leads.symm.trans hfollow)
  have hwithin := within_made (w := w) v (.dir attr)
  have hnone : h'.fs.entry v.loc = none := v.free
  have hdir : (h'.made w v (.dir attr)).fs.IsDirAt v.loc := isDirAt_made
  obtain ⟨attr', hattr'⟩ := hdir
  refine ⟨?_, ⟨attr', hattr'⟩, .inr ?_⟩
  · rw [hloc] at hattr' ⊢
    exact Fs.follow_concat hname (Fs.follow_mono leads_made h₁.leads)
      (leads_made.isDirAt h₁.isDir) hattr' rfl
  · have hempty : ∀ x, (h'.made w v (.dir attr)).fs.entry (v.loc ++ [x]) = none := by
      intro x
      rw [hwithin.none_iff (by simp)]
      exact Fs.none_of_none hnone
    have hdirs : ∀ k e, v.loc <+: k → (h'.made w v (.dir attr)).fs.entry k = some e →
        e.isDir = true := by
      rintro k e ⟨below, rfl⟩ he
      cases below with
      | nil =>
        rw [List.append_nil, hattr'] at he
        cases he
        rfl
      | cons x below =>
        rw [show v.loc ++ x :: below = (v.loc ++ [x]) ++ below by simp,
          Fs.none_of_none (hempty x)] at he
        cases he
    rcases h₁.how with ⟨hfs, htouched⟩ | ⟨top, hnew, htop, -⟩
    · refine ⟨v.loc, ⟨hfs ▸ hnone, ⟨p, name, [], v.dir, rfl, hfs ▸ hfollow, hfs ▸ h₁.isDir, hloc⟩,
        ?_, hdirs⟩, List.prefix_refl _, hempty⟩
      exact (Host.Within.of_eq hfs htouched).trans (hwithin.mono fun k hk => hk ▸ List.prefix_refl _)
    · have hbelow : top <+: v.loc := htop.trans (List.prefix_append _ _)
      have hnew' := hnew.concat name
      refine ⟨top, ⟨hnew'.free, hnew'.place, ?_, fun k e hk he => ?_⟩, hbelow, hempty⟩
      · exact hnew.within.trans (hwithin.mono fun k hk => hk ▸ hbelow)
      · by_cases hkv : v.loc <+: k
        · exact hdirs k e hkv he
        · have hout : k ≠ v.loc := fun hk' => hkv (hk' ▸ List.prefix_refl _)
          obtain ⟨e', he', hun⟩ := hwithin.entry_before hout he
          rw [← isDir_of_untimed hun]
          exact hnew.dirs k e' hk he'

open Prog in
theorem ends_mkdirAllRev (w : World) (perm : BitVec 9) {p : List String} (hp : ∀ part ∈ p, Named part)
    (h : Host) : Ends (mkdirAllRev w perm p) h
      (fun _ h' => ∃ l, MadeAll h h' p.reverse l) (fun _ h' => Prepared h h' p.reverse) := by
  induction p with
  | nil =>
    rw [mkdirAllRev, ends_bind]
    refine ends_query (fun errno _ => .inl ⟨rfl, rfl⟩) fun e _ he => ?_
    exact ends_pure.mpr ⟨[], rfl, h.fs.root, .inl ⟨rfl, rfl⟩⟩
  | cons name above ih =>
    have hname : Named name := hp name List.mem_cons_self
    rw [List.reverse_cons, mkdirAllRev]
    simp only [List.reverse_cons]
    rw [ends_bind, ends_result]
    refine ends_query (fun errno _ => ?_) fun e _ he => ?_
    · rw [ends_bind]
      refine (ih fun part hpart => hp part (List.mem_cons_of_mem _ hpart)).mono ?_
        fun _ _ hprep => hprep.concat name
      rintro - h₁ ⟨l, hl⟩
      rw [ends_bind, ends_result]
      refine ends_make (fun errno _ => ?_) fun v _ hv => ends_pure.mpr ⟨v.loc, hl.made hname hv⟩
      rw [ends_bind, ends_result]
      refine ends_query (fun errno _ => ends_fail.mpr (hl.prepared.concat name)) fun e _ he => ?_
      rw [ends_check]
      refine ⟨fun _ => (hl.prepared.concat name).still ⟨rfl, rfl⟩, fun hdir => ?_⟩
      obtain ⟨k, hk, he⟩ := bind_eq_ok he
      have hentry := entryAt_eq_ok he
      obtain ⟨d, hd, hddir, rfl⟩ := Fs.locate_concat_ok hk
      obtain rfl : l = d := Except.ok.inj (hl.leads.symm.trans hd)
      obtain ⟨attr, rfl⟩ : ∃ attr, e = .dir attr := by
        cases e <;> first | exact ⟨_, rfl⟩ | exact absurd rfl hdir
      rcases hl.how with hstill | ⟨top, -, -, hempty⟩
      · exact ⟨l ++ [name], Fs.follow_concat hname hd hddir hentry rfl, ⟨attr, hentry⟩,
          .inl (hstill.trans ⟨rfl, rfl⟩)⟩
      · rw [hempty name] at hentry
        cases hentry
    · rw [ends_check]
      refine ⟨fun _ => .inl ⟨rfl, rfl⟩, fun hdir => ?_⟩
      obtain ⟨l, hl, he⟩ := bind_eq_ok he
      have hentry := entryAt_eq_ok he
      refine ⟨l, hl, ?_, .inl ⟨rfl, rfl⟩⟩
      cases e <;> first | exact ⟨_, hentry⟩ | exact absurd rfl hdir

theorem ends_mkdirAll {perm : BitVec 9} {p : Path} (hp : ∀ part ∈ p, Named part) (h : Host) :
    Prog.Ends (mkdirAll w p perm) h
      (fun _ h' => ∃ l, MadeAll h h' p l) (fun _ h' => Prepared h h' p) := by
  have hends := ends_mkdirAllRev w perm
    (fun part (hpart : part ∈ p.reverse) => hp part (List.mem_reverse.mp hpart)) h
  rwa [List.reverse_reverse] at hends

open Prog in
theorem fails_mkdirAllRev (perm : BitVec 9) (p : List String) (h : Host) :
    Ends (mkdirAllRev w perm p) h (fun _ _ => True) fun err _ => ∃ errno, err = .sys errno := by
  induction p generalizing h with
  | nil =>
    rw [mkdirAllRev, ends_bind]
    exact ends_look (fun errno => ⟨errno, rfl⟩) fun _ _ _ _ => ends_pure.mpr trivial
  | cons name above ih =>
    rw [mkdirAllRev, ends_bind, ends_result]
    refine ends_look (fun errno => ?_) fun e _ _ _ => ends_check.mpr ⟨fun _ => ⟨_, rfl⟩, fun _ => trivial⟩
    rw [ends_bind]
    refine (ih h).mono (fun _ h₁ _ => ?_) fun _ _ herr => herr
    rw [ends_bind, ends_result]
    refine ends_make (fun errno _ => ?_) fun _ _ _ => ends_pure.mpr trivial
    rw [ends_bind, ends_result]
    refine ends_look (fun _ => ends_fail.mpr ⟨errno, rfl⟩) fun _ _ _ _ => ?_
    exact ends_check.mpr ⟨fun _ => ⟨errno, rfl⟩, fun _ => trivial⟩

/-- It fails with an error of the system only. -/
theorem fails_mkdirAll {perm : BitVec 9} (p : Path) (h : Host) :
    Prog.Ends (mkdirAll w p perm) h (fun _ _ => True) fun err _ => ∃ errno, err = .sys errno :=
  fails_mkdirAllRev perm p.reverse h

end LukePanel.Library.Syscalls
