import LukePanel.Library.FileSystem

/-! # Lookups of paths

How a lookup goes on from the directory its first elements lead to, and that it leads to the same
location when entries are added that are not on its way. -/
namespace LukePanel.Library.FileSystem
open LukePanel.Library.SlashPath

/-- What a lookup does at an entry. -/
inductive Turn where
  | enter
  | jump (target : String)
  | stop
  deriving DecidableEq

def Entry.turn : Entry → Turn
  | .dir _ => .enter
  | .link target => .jump target
  | .file _ _ | .special _ _ => .stop

theorem Entry.turn_eq_enter {e : Entry} : e.turn = .enter ↔ ∃ attr, e = .dir attr := by
  cases e <;> simp [Entry.turn]

namespace Fs

/-- A directory. -/
def IsDirAt (fs : Fs) (l : Loc) : Prop := ∃ attr, fs.entry l = some (.dir attr)

/-- The entries of one file system are there in the other, where lookups do the same at them. -/
def Leads (fs fs' : Fs) : Prop :=
  ∀ l e, fs.entry l = some e → ∃ e', fs'.entry l = some e' ∧ e'.turn = e.turn

variable {fs fs' : Fs} {l dir : Loc} {n : Nat} {p rest : List String}

theorem Leads.refl (fs : Fs) : Leads fs fs := fun _ e he => ⟨e, he, rfl⟩

theorem Leads.trans {fs'' : Fs} (h : Leads fs fs') (h' : Leads fs' fs'') : Leads fs fs'' := by
  intro l e he
  obtain ⟨e', he', hturn⟩ := h l e he
  obtain ⟨e'', he'', hturn'⟩ := h' l e' he'
  exact ⟨e'', he'', hturn'.trans hturn⟩

theorem Leads.isDirAt (h : Leads fs fs') (hdir : fs.IsDirAt l) : fs'.IsDirAt l := by
  obtain ⟨attr, hattr⟩ := hdir
  obtain ⟨e', he', hturn⟩ := h l _ hattr
  obtain ⟨attr', rfl⟩ := Entry.turn_eq_enter.mp hturn
  exact ⟨attr', he'⟩

/-- The entries that a lookup ending at `l` may pass are there in the other file system, where lookups
do the same at them. -/
def LeadsTo (fs fs' : Fs) (l : Loc) : Prop :=
  ∀ k e, fs.entry k = some e → e.turn ≠ .stop ∨ k = l →
    ∃ e', fs'.entry k = some e' ∧ e'.turn = e.turn

theorem Leads.leadsTo (h : Leads fs fs') : LeadsTo fs fs' l := fun k e he _ => h k e he

/-- A lookup ends there also where files that it does not end at are missing. -/
theorem walkFrom_mono {jump jump' : Loc → List String → Except Errno Loc} (h : LeadsTo fs fs' l)
    (hjump : ∀ d ps, jump d ps = .ok l → jump' d ps = .ok l)
    (hwalk : fs.walkFrom jump dir p = .ok l) : fs'.walkFrom jump' dir p = .ok l := by
  induction p generalizing dir with
  | nil => exact hwalk
  | cons part rest ih =>
    rw [walkFrom] at hwalk ⊢
    split at hwalk
    · rename_i hskip
      rw [if_pos hskip]
      exact ih hwalk
    · rename_i hskip
      rw [if_neg hskip]
      split at hwalk
      · rename_i hup
        rw [if_pos hup]
        exact ih hwalk
      · rename_i hup
        rw [if_neg hup]
        cases he : fs.entry (dir ++ [part]) with
        | none =>
          rw [he] at hwalk
          cases hwalk
        | some e =>
          rw [he] at hwalk
          -- a file is passed only where the lookup ends
          have hpassed : e.turn ≠ .stop ∨ dir ++ [part] = l := by
            cases e with
            | dir attr => exact .inl fun hstop => by cases hstop
            | link target => exact .inl fun hstop => by cases hstop
            | _ =>
              dsimp only at hwalk
              split at hwalk
              · exact .inr (Except.ok.inj hwalk)
              · cases hwalk
          obtain ⟨e', he', hturn⟩ := h _ e he hpassed
          rw [he']
          cases e <;> cases e' <;> cases hturn
          · exact ih hwalk
          · exact hwalk
          · exact hwalk
          · exact hjump _ _ hwalk
          · exact hwalk
          · exact hwalk

theorem walk_mono (h : LeadsTo fs fs' l) (hwalk : fs.walk n dir p = .ok l) :
    fs'.walk n dir p = .ok l := by
  induction n generalizing dir p with
  | zero => cases hwalk
  | succ n ih => exact walkFrom_mono h (fun _ _ => ih) hwalk

theorem LeadsTo.follow (h : LeadsTo fs fs' l) (hfollow : fs.follow p = .ok l) :
    fs'.follow p = .ok l := walk_mono h hfollow

/-- A lookup that found something finds it also where there are more entries. -/
theorem follow_mono (h : Leads fs fs') (hfollow : fs.follow p = .ok l) : fs'.follow p = .ok l :=
  h.leadsTo.follow hfollow

/-- A lookup goes on where its first elements lead, with fewer links to follow. -/
theorem walk_append (rest : List String) (hp : fs.walk n dir p = .ok l) (hl : fs.IsDirAt l) :
    ∃ k, fs.walk n dir (p ++ rest) = fs.walk (k + 1) l rest := by
  induction n generalizing dir p with
  | zero => cases hp
  | succ n ih =>
    suffices h : ∀ parts d, fs.walkFrom (fs.walk n) d parts = .ok l →
        ∃ k, fs.walkFrom (fs.walk n) d (parts ++ rest) = fs.walk (k + 1) l rest from h p dir hp
    intro parts
    induction parts with
    | nil =>
      intro d hd
      cases hd
      exact ⟨n, rfl⟩
    | cons part more ihp =>
      intro d hd
      rw [walkFrom] at hd
      rw [List.cons_append, walkFrom]
      split at hd
      · rename_i hskip
        rw [if_pos hskip]
        exact ihp d hd
      · rename_i hskip
        rw [if_neg hskip]
        split at hd
        · rename_i hup
          rw [if_pos hup]
          exact ihp _ hd
        · rename_i hup
          rw [if_neg hup]
          cases he : fs.entry (d ++ [part]) with
          | none =>
            rw [he] at hd
            cases hd
          | some e =>
            rw [he] at hd
            obtain ⟨attr, hattr⟩ := hl
            cases e with
            | link target =>
              dsimp only at hd ⊢
              rw [← List.append_assoc]
              exact ih hd
            | dir attr' => exact ihp _ hd
            | file attr' content =>
              dsimp only at hd
              split at hd
              · cases hd
                rw [he] at hattr
                cases hattr
              · cases hd
            | special attr' kind =>
              dsimp only at hd
              split at hd
              · cases hd
                rw [he] at hattr
                cases hattr
              · cases hd

/-- The first elements of a path that leads somewhere lead to a directory. -/
theorem walk_append_ok (hdir : fs.IsDirAt dir) (hrest : rest ≠ [])
    (h : fs.walk n dir (p ++ rest) = .ok l) :
    ∃ d, fs.walk n dir p = .ok d ∧ fs.IsDirAt d := by
  induction n generalizing dir p with
  | zero => cases h
  | succ n ih =>
    suffices hsuff : ∀ parts d, fs.IsDirAt d → fs.walkFrom (fs.walk n) d (parts ++ rest) = .ok l →
        ∃ d', fs.walkFrom (fs.walk n) d parts = .ok d' ∧ fs.IsDirAt d' from hsuff p dir hdir h
    intro parts
    induction parts with
    | nil => exact fun d hd _ => ⟨d, rfl, hd⟩
    | cons part more ihp =>
      intro d hd hwalk
      rw [List.cons_append, walkFrom] at hwalk
      rw [walkFrom]
      split at hwalk
      · rename_i hskip
        rw [if_pos hskip]
        exact ihp d hd hwalk
      · rename_i hskip
        rw [if_neg hskip]
        split at hwalk
        · rename_i hup
          rw [if_pos hup]
          refine ihp _ ?_ hwalk
          by_cases hnil : d = []
          · rw [hnil]
            exact fs.root
          · obtain ⟨attr, hattr⟩ := hd
            rw [← List.dropLast_append_getLast hnil] at hattr
            exact fs.parent _ _ _ hattr
        · rename_i hup
          rw [if_neg hup]
          cases he : fs.entry (d ++ [part]) with
          | none =>
            rw [he] at hwalk
            cases hwalk
          | some e =>
            rw [he] at hwalk
            cases e with
            | link target =>
              dsimp only at hwalk ⊢
              rw [← List.append_assoc] at hwalk
              refine ih ?_ hwalk
              split
              · exact fs.root
              · exact hd
            | dir attr => exact ihp _ ⟨attr, he⟩ hwalk
            | file attr content =>
              dsimp only at hwalk
              rw [if_neg (by simp [hrest])] at hwalk
              cases hwalk
            | special attr kind =>
              dsimp only at hwalk
              rw [if_neg (by simp [hrest])] at hwalk
              cases hwalk

/-- A path on which there are no links leads where it says. -/
theorem walkFrom_linkless {jump : Loc → List String → Except Errno Loc}
    (hrest : ∀ part ∈ rest, Named part)
    (hlinks : ∀ k e, k ≠ [] → k <+: rest → fs.entry (dir ++ k) = some e → e.isLink = false)
    (h : fs.walkFrom jump dir rest = .ok l) : l = dir ++ rest := by
  induction rest generalizing dir with
  | nil =>
    cases h
    exact (List.append_nil _).symm
  | cons part rest ih =>
    obtain ⟨hempty, hdot, hdots⟩ := hrest part List.mem_cons_self
    rw [walkFrom, if_neg (not_or.mpr ⟨hempty, hdot⟩), if_neg hdots] at h
    cases he : fs.entry (dir ++ [part]) with
    | none =>
      rw [he] at h
      cases h
    | some e =>
      have hlink := hlinks [part] e (by simp) (by simp) he
      rw [he] at h
      cases e with
      | dir attr =>
        have hbelow : l = (dir ++ [part]) ++ rest := ih
          (fun other hother => hrest other (List.mem_cons_of_mem _ hother))
          (fun k e hk hpre hk' => hlinks (part :: k) e (by simp)
            (List.cons_prefix_cons.mpr ⟨rfl, hpre⟩) (by simpa using hk')) h
        simpa using hbelow
      | link target => cases hlink
      | _ =>
        dsimp only at h
        split at h
        · rename_i hnil
          cases h
          rw [hnil]
        · cases h

/-- A path through directories only leads where it says. -/
theorem walkFrom_dirs {jump : Loc → List String → Except Errno Loc}
    (hrest : ∀ part ∈ rest, Named part)
    (hdirs : ∀ k e, k ≠ [] → k <+: rest → fs.entry (dir ++ k) = some e → e.isDir = true)
    (h : fs.walkFrom jump dir rest = .ok l) : l = dir ++ rest := by
  refine walkFrom_linkless hrest (fun k e hk hpre he => ?_) h
  have hdir := hdirs k e hk hpre he
  cases e with
  | dir attr => rfl
  | _ => cases hdir

theorem walk_singleton {part : String} (hpart : Named part) :
    fs.walk (n + 1) l [part] =
      match fs.entry (l ++ [part]) with
      | none => .error (absent part)
      | some (.link target) =>
        fs.walk n (if target.toList.head? = some '/' then [] else l) (GoStrings.split '/' target)
      | some _ => .ok (l ++ [part]) := by
  obtain ⟨hempty, hdot, hdots⟩ := hpart
  rw [walk, walkFrom, if_neg (not_or.mpr ⟨hempty, hdot⟩), if_neg hdots]
  cases he : fs.entry (l ++ [part]) with
  | none => rfl
  | some e => cases e <;> simp [walkFrom]

/-- Where a path leads that goes on in the directory another one leads to. -/
theorem follow_concat {part : String} {e : Entry} (hpart : Named part)
    (hp : fs.follow p = .ok l) (hl : fs.IsDirAt l) (he : fs.entry (l ++ [part]) = some e)
    (hlink : e.isLink = false) : fs.follow (p ++ [part]) = .ok (l ++ [part]) := by
  obtain ⟨k, hk⟩ := walk_append [part] hp hl
  rw [follow, hk, walk_singleton hpart, he]
  cases e with
  | link target => cases hlink
  | _ => rfl

theorem follow_concat_none {part : String} (hpart : Named part) (hp : fs.follow p = .ok l)
    (hl : fs.IsDirAt l) (he : fs.entry (l ++ [part]) = none) :
    fs.follow (p ++ [part]) = .error (absent part) := by
  obtain ⟨k, hk⟩ := walk_append [part] hp hl
  rw [follow, hk, walk_singleton hpart, he]

/-- A path that leads somewhere names an entry of the directory its other elements lead to. -/
theorem follow_concat_ok {part : String} (hpart : Named part)
    (h : fs.follow (p ++ [part]) = .ok l) :
    ∃ d, fs.follow p = .ok d ∧ fs.IsDirAt d ∧ ∃ e, fs.entry (d ++ [part]) = some e ∧
      (e.isLink = false → l = d ++ [part]) := by
  obtain ⟨d, hd, hdir⟩ := walk_append_ok fs.root (by simp) h
  refine ⟨d, hd, hdir, ?_⟩
  cases he : fs.entry (d ++ [part]) with
  | none =>
    rw [follow_concat_none hpart hd hdir he] at h
    cases h
  | some e =>
    refine ⟨e, rfl, fun hlink => ?_⟩
    rw [follow_concat hpart hd hdir he hlink] at h
    cases h
    rfl

theorem locate_concat {part : String} (hp : fs.follow p = .ok l) (hl : fs.IsDirAt l) :
    fs.locate (p ++ [part]) = .ok (l ++ [part]) := by
  obtain ⟨attr, hattr⟩ := hl
  simp [locate, hp, hattr]

theorem locate_concat_ok {part : String} (h : fs.locate (p ++ [part]) = .ok l) :
    ∃ d, fs.follow p = .ok d ∧ fs.IsDirAt d ∧ l = d ++ [part] := by
  obtain ⟨hnil, -⟩ | ⟨d, name, attr, hpath, hd, hattr, rfl⟩ := locate_ok h
  · simp at hnil
  · rw [List.dropLast_concat] at hpath hd
    obtain ⟨-, hname⟩ := List.append_inj' hpath rfl
    rw [List.singleton_inj.mp hname]
    exact ⟨d, hd, ⟨attr, hattr⟩, rfl⟩

theorem vacant_concat_ok {part : String} {v : fs.Vacant} (h : fs.vacant (p ++ [part]) = .ok v) :
    fs.follow p = .ok v.dir ∧ v.name = part ∧ v.loc = v.dir ++ [part] := by
  obtain ⟨hpath, hfollow⟩ := vacant_ok h
  rw [List.dropLast_concat] at hpath hfollow
  obtain ⟨-, hname⟩ := List.append_inj' hpath rfl
  have hname : part = v.name := List.singleton_inj.mp hname
  exact ⟨hfollow, hname.symm, by rw [Vacant.loc, hname]⟩

end Fs

/-! ## Paths of directories and of places in them -/

section

variable {fs fs' : Fs} {p path : List String} {d l : Loc} {name : String}

/-- The path of a directory. -/
structure Leading (fs : Fs) (p : List String) (d : Loc) : Prop where
  leads : fs.follow p = .ok d
  isDir : fs.IsDirAt d

theorem Leading.mono (hp : Leading fs p d) (h : Fs.Leads fs fs') : Leading fs' p d :=
  ⟨Fs.follow_mono h hp.leads, h.isDirAt hp.isDir⟩

theorem Leading.concat (hp : Leading fs p d) (hname : Named name)
    (hdir : fs.IsDirAt (d ++ [name])) : Leading fs (p ++ [name]) (d ++ [name]) := by
  obtain ⟨attr, hattr⟩ := hdir
  exact ⟨Fs.follow_concat hname hp.leads hp.isDir hattr rfl, attr, hattr⟩

/-- A path that goes on from a directory without links leads to the place below it. -/
theorem Leading.follow_linkless {rest : List String} (hp : Leading fs p d)
    (hrest : ∀ part ∈ rest, Named part)
    (hlinks : ∀ k e, k ≠ [] → k <+: rest → fs.entry (d ++ k) = some e → e.isLink = false)
    (h : fs.follow (p ++ rest) = .ok l) : l = d ++ rest := by
  obtain ⟨n, hn⟩ := Fs.walk_append rest hp.leads hp.isDir
  rw [Fs.follow, hn] at h
  exact Fs.walkFrom_linkless hrest hlinks h

/-- It does so where something is that is no link. -/
theorem Leading.follow_entry {rest : List String} {e : Entry} (hp : Leading fs p d)
    (he : fs.entry (d ++ rest) = some e) (hlink : e.isLink = false) :
    fs.follow (p ++ rest) = .ok (d ++ rest) := by
  obtain ⟨n, hn⟩ := Fs.walk_append rest hp.leads hp.isDir
  rw [Fs.follow, hn]
  exact Fs.walkFrom_entry d he hlink

/-- The path of a place in a directory. -/
def Place (fs : Fs) (path : List String) (l : Loc) : Prop :=
  ∃ p name d, path = p ++ [name] ∧ Named name ∧ Leading fs p d ∧ l = d ++ [name]

theorem Place.ne_nil (hp : Place fs path l) : l ≠ [] := by
  obtain ⟨p, name, d, -, -, -, rfl⟩ := hp
  simp

theorem Place.mono (hp : Place fs path l) (h : Fs.Leads fs fs') : Place fs' path l := by
  obtain ⟨p, name, d, hpath, hname, hlead, hl⟩ := hp
  exact ⟨p, name, d, hpath, hname, hlead.mono h, hl⟩

theorem Place.locate (hp : Place fs path l) : fs.locate path = .ok l := by
  obtain ⟨p, name, d, rfl, -, hlead, rfl⟩ := hp
  exact Fs.locate_concat hlead.leads hlead.isDir

theorem Place.follow {e : Entry} (hp : Place fs path l) (he : fs.entry l = some e)
    (hlink : e.isLink = false) : fs.follow path = .ok l := by
  obtain ⟨p, name, d, rfl, hname, hlead, rfl⟩ := hp
  exact Fs.follow_concat hname hlead.leads hlead.isDir he hlink

/-- A location of an entry is its own path. -/
theorem place_of_entry {e : Entry} (he : fs.entry l = some e) (hl : l ≠ []) : Place fs l l := by
  rw [← List.dropLast_append_getLast hl] at he ⊢
  obtain ⟨attr, hattr⟩ := fs.parent _ _ _ he
  exact ⟨_, _, _, rfl, (fs.named _ _ _ he).1.1, ⟨Fs.follow_dir hattr, attr, hattr⟩, rfl⟩

end

end LukePanel.Library.FileSystem
