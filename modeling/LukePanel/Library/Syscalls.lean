import LukePanel.Library.Attempt
import LukePanel.Library.FileSystem

/-! # System calls on a file system

The calls of Go's `os` package on a file system that nothing else changes. Any call may fail; the
world says which do, what the clock shows, what random numbers are drawn, and what a call that
fails halfway has done. Every location that is made, changed, replaced or removed is noted. -/
namespace LukePanel.Library.Syscalls
open LukePanel.Library.Attempt LukePanel.Library.FileSystem

/-- A cleaned absolute path: its elements. -/
abbrev Path := List String

inductive Call where
  | lstat (path : Path)
  | stat (path : Path)
  | evalSymlinks (path : Path)
  | mkdir (path : Path)
  | openNew (path : Path)
  | openRead (path : Path)
  | read (loc : Loc)
  | write (path : Path)
  | sync (path : Path)
  | close (path : Path)
  | chmod (path : Path)
  | chown (path : Path)
  | chtimes (path : Path)
  | rename (source destination : Path)
  | remove (path : Path)
  | removeAll (path : Path)
  | readDir (path : Path)
  deriving DecidableEq

structure World where
  fails : Call → Option Errno
  clock : Nat → Nat
  random : Nat → Nat
  umask : BitVec 9
  uid : Nat
  gid : Nat
  /-- What reading a special file gives, if the reading ends. -/
  stream : Loc → Option Bytes
  /-- How many bytes are written, or read, before that fails. -/
  written : Path → Nat
  /-- What is left when the removal of a tree fails. -/
  leaves : Path → List Loc

/-- A world in which no call fails. -/
def World.calm : World where
  fails _ := none
  clock ticks := ticks
  random ticks := ticks
  umask := 0o022#9
  uid := 0
  gid := 0
  stream _ := none
  written _ := 0
  leaves _ := []

structure Host where
  fs : Fs
  ticks : Nat
  touched : List Loc

/-- Nothing was done between two states. -/
def Host.Still (h h' : Host) : Prop := h'.fs = h.fs ∧ h'.touched = h.touched

theorem Host.Still.refl (h : Host) : h.Still h := ⟨rfl, rfl⟩

theorem Host.Still.trans {h h' h'' : Host} (h₁ : h.Still h') (h₂ : h'.Still h'') : h.Still h'' :=
  ⟨h₂.1.trans h₁.1, h₂.2.trans h₁.2⟩

theorem Host.Still.symm {h h' : Host} (h₁ : h.Still h') : h'.Still h := ⟨h₁.1.symm, h₁.2.symm⟩

/-- A Go error. -/
inductive Err where
  | sys (errno : Errno)
  | msg (text : String)
  | wrap (text : String) (err : Err)
  deriving DecidableEq, Repr

namespace Err

/-- `errors.Is` for an error number. -/
def is (errno : Errno) : Err → Bool
  | .sys e => e = errno
  | .msg _ => false
  | .wrap _ err => err.is errno

def isNotExist (err : Err) : Bool := err.is .ENOENT

/-- `errors.Is(err, os.ErrExist)` -/
def isExist (err : Err) : Bool := err.is .EEXIST || err.is .ENOTEMPTY

end Err

abbrev Sys (α : Type) := Prog Host Err α

variable (w : World)

/-- A call that fails without effect, or changes the file system at some locations. -/
def effect {α : Type} (c : Call) (f : Host → Except Errno (α × Fs × List Loc)) : Sys α := fun h =>
  match w.fails c with
  | some errno => (.error (.sys errno), h)
  | none =>
    match f h with
    | .error errno => (.error (.sys errno), h)
    | .ok (a, fs, ls) => (.ok a, ⟨fs, h.ticks + 1, ls ++ h.touched⟩)

/-- A call that changes nothing. -/
def query {α : Type} (c : Call) (f : Fs → Except Errno α) : Sys α :=
  effect w c fun h => (f h.fs).map fun a => (a, h.fs, [])

/-! ## Looking -/

/-- The entry a path names, which is not there under an absent name. -/
def entryAt (fs : Fs) (l : Loc) : Except Errno Entry :=
  match fs.entry l with
  | some e => .ok e
  | none => .error (Fs.absent (l.getLast?.getD ""))

def lstat (p : Path) : Sys Entry := query w (.lstat p) fun fs => fs.locate p >>= entryAt fs

def stat (p : Path) : Sys Entry := query w (.stat p) fun fs => fs.follow p >>= entryAt fs

/-- `filepath.EvalSymlinks`, which follows 255 links. -/
def evalSymlinks (p : Path) : Sys Loc := query w (.evalSymlinks p) fun fs => fs.walk 256 [] p

/-- `os.ReadDir`: the names, sorted. -/
def readDir (p : Path) : Sys (List String) :=
  query w (.readDir p) fun fs => do
    let l ← fs.follow p
    match fs.entry l with
    | some (.dir _) => .ok (fs.names l)
    | _ => .error .ENOTDIR

/-- `os.Open`; the handle is the location. -/
def openRead (p : Path) : Sys Loc := query w (.openRead p) fun fs => fs.follow p

/-- What reading an open file to its end gives. -/
def contentAt (fs : Fs) (l : Loc) : Except Errno Bytes :=
  match fs.entry l with
  | some (.file _ content) => .ok content
  | some (.special _ _) => (w.stream l).elim (.error .EINTR) .ok
  | _ => .error .EISDIR

/-- `os.ReadFile`, which returns what it has read along with an error. -/
def readFile (p : Path) : Sys (Bytes × Option Err) := do
  match ← Prog.result (openRead w p) with
  | .error err => return ([], some err)
  | .ok l =>
    match ← Prog.result (Prog.read fun h => (contentAt w h.fs l).mapError Err.sys) with
    | .error err => return ([], some err)
    | .ok content =>
      match w.fails (.read l) with
      | some errno => return (content.take (w.written p), some (.sys errno))
      | none => return (content, none)

/-! ## Making -/

/-- A directory's time when an entry in it is made or removed. -/
def stamp (fs : Fs) (l : Loc) (time : Nat) : Fs :=
  fs.alter l (Entry.stamped time) fun _ => ⟨_, rfl⟩

/-- Makes an entry at a free place; `e` is the entry for the directory's attributes and the time. -/
def make (c : Call) (p : Path) (e : Attr → Nat → Entry) : Sys Unit :=
  effect w c fun h => do
    let v ← h.fs.vacant p
    let time := w.clock h.ticks
    return ((), stamp (h.fs.create v (e v.attr time)) v.dir time, [v.loc])

/-- The permissions a new entry gets. -/
def masked (perm : BitVec 9) : BitVec 9 := perm &&& ~~~w.umask

/-- A new entry in a directory with the set-group-id bit gets its group. -/
def newGid (parent : Attr) : Nat := if parent.mode.setgid then parent.gid else w.gid

/-- `os.Mkdir`; the set-group-id bit is inherited. -/
def mkdir (p : Path) (perm : BitVec 9) : Sys Unit :=
  make w (.mkdir p) p fun parent time =>
    .dir ⟨⟨masked w perm, false, parent.mode.setgid, false⟩, w.uid, newGid w parent, time⟩

/-- `os.OpenFile` with `O_CREATE|O_EXCL|O_WRONLY`. -/
def openNew (p : Path) (perm : BitVec 9) : Sys Unit :=
  make w (.openNew p) p fun parent time =>
    .file ⟨⟨masked w perm, false, false, false⟩, w.uid, newGid w parent, time⟩ []

/-- `os.MkdirAll` of a path given last element first. -/
def mkdirAllRev (perm : BitVec 9) : List String → Sys Unit
  | [] => do
    let _ ← stat w []
  | name :: above => do
    let p := (name :: above).reverse
    match ← Prog.result (stat w p) with
    | .ok e => Prog.check (e.isDir = false) (.sys .ENOTDIR)
    | .error _ => do
      mkdirAllRev perm above
      match ← Prog.result (mkdir w p perm) with
      | .ok _ => return ()
      | .error err =>
        match ← Prog.result (lstat w p) with
        | .ok e => Prog.check (e.isDir = false) err
        | .error _ => Prog.fail err

def mkdirAll (p : Path) (perm : BitVec 9) : Sys Unit := mkdirAllRev w perm p.reverse

/-! ## Changing -/

/-- Changes the entry a path leads to. -/
def change (c : Call) (p : Path) (f : Nat → Entry → Entry)
    (hf : ∀ time attr, ∃ attr', f time (.dir attr) = .dir attr') : Sys Unit :=
  effect w c fun h => do
    let l ← h.fs.follow p
    return ((), h.fs.alter l (f (w.clock h.ticks)) (hf _), [l])

def chmod (p : Path) (mode : Mode) : Sys Unit :=
  change w (.chmod p) p (fun _ => Entry.withAttr fun attr => { attr with mode })
    fun _ _ => ⟨_, rfl⟩

/-- What a change of its owner leaves of the mode of anything but a directory. -/
def disowned (mode : Mode) : Mode :=
  { mode with setuid := false, setgid := mode.setgid && !mode.perm.getLsbD 3 }

/-- The entry with another owner. -/
def chowned (uid gid : Nat) : Entry → Entry
  | .dir attr => .dir { attr with uid, gid }
  | e => e.withAttr fun attr => { attr with uid, gid, mode := disowned attr.mode }

def chown (p : Path) (uid gid : Nat) : Sys Unit :=
  change w (.chown p) p (fun _ => chowned uid gid) fun _ _ => ⟨_, rfl⟩

def chtimes (p : Path) (mtime : Nat) : Sys Unit :=
  change w (.chtimes p) p (fun _ => Entry.withAttr fun attr => { attr with mtime })
    fun _ _ => ⟨_, rfl⟩

/-- Bytes are appended to an open file. -/
def appendTo (p : Path) (bytes : Bytes) (h : Host) : Host :=
  match h.fs.follow p with
  | .error _ => h
  | .ok l =>
    { fs := h.fs.alter l (fun e => (e.withContent (· ++ bytes)).withAttr
        fun attr => { attr with mtime := w.clock h.ticks }) fun _ => ⟨_, rfl⟩
      ticks := h.ticks + 1
      touched := l :: h.touched }

/-- Writes to a file that was opened; a write that fails has written a part. -/
def write (p : Path) (bytes : Bytes) : Sys Unit := fun h =>
  match w.fails (.write p) with
  | some errno => (.error (.sys errno), appendTo w p (bytes.take (w.written p)) h)
  | none => (.ok (), appendTo w p bytes h)

/-- `io.Copy` from an open file, through `io.LimitReader` if there is a limit; the number of bytes
is returned. -/
def copyTo (dst : Path) (src : Loc) (limit : Option Nat) : Sys Nat := do
  let content ← Prog.read fun h => (contentAt w h.fs src).mapError Err.sys
  let bytes := limit.elim content content.take
  match w.fails (.read src) with
  | some errno => do
    Prog.modify (appendTo w dst (bytes.take (w.written dst)))
    Prog.fail (.sys errno)
  | none => do
    write w dst bytes
    return bytes.length

/-- `io.Reader`: what reading yields, and whether it ends after that or fails. -/
structure Reader where
  bytes : Bytes
  ends : Bool

/-- `io.Copy` to an open file from a reader, through `io.LimitReader`. -/
def copyFrom (dst : Path) (r : Reader) (limit : Nat) : Sys Nat := do
  let bytes := r.bytes.take limit
  write w dst bytes
  Prog.check (r.bytes.length < limit ∧ r.ends = false) (.msg "unexpected EOF")
  return bytes.length

def sync (p : Path) : Sys Unit := query w (.sync p) fun _ => .ok ()

def close (p : Path) : Sys Unit := query w (.close p) fun _ => .ok ()

/-! ## Moving and removing -/

def rename (source destination : Path) : Sys Unit :=
  effect w (.rename source destination) fun h => do
    let src ← h.fs.locate source
    let _ ← entryAt h.fs src
    let dst ← h.fs.locate destination
    if dst = src then return ((), h.fs, [])
    else
      let t ← h.fs.target src destination
      if hsrc : src = [] then .error .EINVAL
      else
        let time := w.clock h.ticks
        return ((), stamp (stamp (h.fs.move src hsrc t) src.dropLast time) t.dir time, [src, t.loc])

/-- `os.Remove`: a file, or a directory with nothing in it. -/
def remove (p : Path) : Sys Unit :=
  effect w (.remove p) fun h => do
    let l ← h.fs.locate p
    let e ← entryAt h.fs l
    if hl : l = [] then .error .EINVAL
    else if e.isDir ∧ h.fs.names l ≠ [] then .error .ENOTEMPTY
    else return ((), stamp (h.fs.erase l hl []) l.dropLast (w.clock h.ticks), [l])

/-- The file system without a tree, but for what is left of it. -/
def removed (h : Host) (l : Loc) (hl : l ≠ []) (left : List Loc) : Host where
  fs := stamp (h.fs.erase l hl left) l.dropLast (w.clock h.ticks)
  ticks := h.ticks + 1
  touched := l :: h.touched

/-- `os.RemoveAll`; nothing to remove is no failure, and one that fails has removed a part. -/
def removeAll (p : Path) : Sys Unit := fun h =>
  match h.fs.locate p with
  | .error .ENOENT => (.ok (), h)
  | .error errno => (.error (.sys errno), h)
  | .ok l =>
    if hl : l = [] then (.error (.sys .EINVAL), h)
    else
      match w.fails (.removeAll p) with
      | some errno => (.error (.sys errno), removed w h l hl (w.leaves p))
      | none => if (h.fs.entry l).isNone then (.ok (), h) else (.ok (), removed w h l hl [])

/-! ## Temporary files -/

/-- `os.CreateTemp`: names are drawn until one is free. -/
def tryTemp (dir : Path) (before after : String) : Nat → Sys Path
  | 0 => Prog.fail (.sys .EEXIST)
  | n + 1 => do
    let name ← Prog.read fun h : Host => .ok (before ++ toString (w.random h.ticks % 2 ^ 32) ++ after)
    Prog.modify fun h : Host => { h with ticks := h.ticks + 1 }
    match ← Prog.result (openNew w (dir ++ [name]) 0o600#9) with
    | .ok _ => return dir ++ [name]
    | .error err =>
      if err.isExist then tryTemp dir before after n
      else Prog.fail err

def createTemp (dir : Path) (before after : String) : Sys Path := tryTemp w dir before after 10000

/-! ## What the calls end in -/

section

variable {w} {α : Type} {h : Host} {Q : α → Host → Prop} {E : Err → Host → Prop}

open Prog

theorem ends_effect {c : Call} {f : Host → Except Errno (α × Fs × List Loc)}
    (hE : ∀ errno, w.fails c = some errno ∨ f h = .error errno → E (.sys errno) h)
    (hQ : ∀ a fs ls, w.fails c = none → f h = .ok (a, fs, ls) →
      Q a ⟨fs, h.ticks + 1, ls ++ h.touched⟩) : Ends (effect w c f) h Q E := by
  unfold Ends effect
  cases hfails : w.fails c with
  | some errno => exact hE errno (.inl hfails)
  | none =>
    cases hf : f h with
    | error errno => exact hE errno (.inr hf)
    | ok r => exact hQ r.1 r.2.1 r.2.2 hfails hf

theorem ends_query {c : Call} {f : Fs → Except Errno α}
    (hE : ∀ errno, w.fails c = some errno ∨ f h.fs = .error errno → E (.sys errno) h)
    (hQ : ∀ a, w.fails c = none → f h.fs = .ok a → Q a ⟨h.fs, h.ticks + 1, h.touched⟩) :
    Ends (query w c f) h Q E := by
  refine ends_effect (fun errno herr => hE errno (herr.imp_right fun hf => ?_))
    fun a fs ls hfails hf => ?_
  · cases hfs : f h.fs with
    | error e =>
      rw [hfs] at hf
      cases hf
      rfl
    | ok a =>
      rw [hfs] at hf
      cases hf
  · cases hfs : f h.fs with
    | error e =>
      rw [hfs] at hf
      cases hf
    | ok a' =>
      rw [hfs] at hf
      cases hf
      exact hQ a hfails hfs

/-- What is seen is there, and stays. -/
theorem ends_look {c : Call} {f : Fs → Except Errno α} (hE : ∀ errno, E (.sys errno) h)
    (hQ : ∀ a h', h.Still h' → f h.fs = .ok a → Q a h') : Ends (query w c f) h Q E :=
  ends_query (fun errno _ => hE errno) fun a _ ha => hQ a _ ⟨rfl, rfl⟩ ha

theorem ends_query_ok {c : Call} {f : Fs → Except Errno α} {a : α} (hfails : w.fails c = none)
    (hf : f h.fs = .ok a) (hQ : Q a ⟨h.fs, h.ticks + 1, h.touched⟩) : Ends (query w c f) h Q E := by
  refine ends_query (fun errno herr => ?_) fun a' _ ha' => ?_
  · rcases herr with herr | herr
    · rw [hfails] at herr
      cases herr
    · rw [hf] at herr
      cases herr
  · rw [hf] at ha'
    cases ha'
    exact hQ

theorem ends_readDir_ok {p : Path} {l : Loc} {attr : Attr} {Q : List String → Host → Prop}
    (hfails : w.fails (.readDir p) = none) (hl : h.fs.follow p = .ok l)
    (hattr : h.fs.entry l = some (.dir attr))
    (hQ : Q (h.fs.names l) ⟨h.fs, h.ticks + 1, h.touched⟩) : Ends (readDir w p) h Q E := by
  refine ends_query_ok hfails ?_ hQ
  rw [hl]
  change (match h.fs.entry l with | some (.dir _) => _ | _ => _) = _
  rw [hattr]

/-- The host after an entry was made. -/
def Host.made (w : World) (h : Host) (v : h.fs.Vacant) (e : Entry) : Host :=
  ⟨stamp (h.fs.create v e) v.dir (w.clock h.ticks), h.ticks + 1, v.loc :: h.touched⟩

theorem ends_make {c : Call} {p : Path} {e : Attr → Nat → Entry} {Q : Unit → Host → Prop}
    (hE : ∀ errno, w.fails c = some errno ∨ h.fs.vacant p = .error errno → E (.sys errno) h)
    (hQ : ∀ v, w.fails c = none → h.fs.vacant p = .ok v →
      Q () (h.made w v (e v.attr (w.clock h.ticks)))) : Ends (make w c p e) h Q E := by
  refine ends_effect (fun errno herr => hE errno (herr.imp_right fun hf => ?_))
    fun a fs ls hfails hf => ?_
  · cases hv : h.fs.vacant p with
    | error e =>
      rw [hv] at hf
      cases hf
      rfl
    | ok v =>
      rw [hv] at hf
      cases hf
  · cases hv : h.fs.vacant p with
    | error e =>
      rw [hv] at hf
      cases hf
    | ok v =>
      rw [hv] at hf
      cases hf
      exact hQ v hfails hv

/-- The host after an entry was changed. -/
def Host.changed (h : Host) (l : Loc) (f : Entry → Entry)
    (hf : ∀ attr, ∃ attr', f (.dir attr) = .dir attr') : Host :=
  ⟨h.fs.alter l f hf, h.ticks + 1, l :: h.touched⟩

theorem ends_change {c : Call} {p : Path} {f : Nat → Entry → Entry}
    {hf : ∀ time attr, ∃ attr', f time (.dir attr) = .dir attr'} {Q : Unit → Host → Prop}
    (hE : ∀ errno, w.fails c = some errno ∨ h.fs.follow p = .error errno → E (.sys errno) h)
    (hQ : ∀ l, w.fails c = none → h.fs.follow p = .ok l →
      Q () (h.changed l (f (w.clock h.ticks)) (hf _))) : Ends (change w c p f hf) h Q E := by
  refine ends_effect (fun errno herr => hE errno (herr.imp_right fun hx => ?_))
    fun a fs ls hfails hx => ?_
  · cases hl : h.fs.follow p with
    | error e =>
      rw [hl] at hx
      cases hx
      rfl
    | ok l =>
      rw [hl] at hx
      cases hx
  · cases hl : h.fs.follow p with
    | error e =>
      rw [hl] at hx
      cases hx
    | ok l =>
      rw [hl] at hx
      cases hx
      exact hQ l hfails hl

theorem ends_write {p : Path} {bytes : Bytes} {Q : Unit → Host → Prop}
    (hE : ∀ errno, w.fails (.write p) = some errno →
      E (.sys errno) (appendTo w p (bytes.take (w.written p)) h))
    (hQ : w.fails (.write p) = none → Q () (appendTo w p bytes h)) :
    Ends (write w p bytes) h Q E := by
  unfold Ends write
  cases hfails : w.fails (.write p) with
  | some errno => exact hE errno hfails
  | none => exact hQ hfails

theorem ends_copyTo {dst : Path} {src : Loc} {limit : Option Nat} {Q : Nat → Host → Prop}
    (hread : ∀ errno, contentAt w h.fs src = .error errno → E (.sys errno) h)
    (hE : ∀ content errno, contentAt w h.fs src = .ok content →
      w.fails (.read src) = some errno ∨ w.fails (.write dst) = some errno →
        E (.sys errno) (appendTo w dst ((limit.elim content content.take).take (w.written dst)) h))
    (hQ : ∀ content, contentAt w h.fs src = .ok content → w.fails (.read src) = none →
      w.fails (.write dst) = none →
        Q (limit.elim content content.take).length
          (appendTo w dst (limit.elim content content.take) h)) :
    Ends (copyTo w dst src limit) h Q E := by
  unfold copyTo
  rw [ends_bind, ends_read]
  refine ⟨fun content hcontent => ?_, fun err herr => ?_⟩
  · have hok : contentAt w h.fs src = .ok content := by
      cases hc : contentAt w h.fs src with
      | error e =>
        rw [hc] at hcontent
        cases hcontent
      | ok c =>
        rw [hc] at hcontent
        cases hcontent
        rfl
    split
    · rename_i errno hfails
      rw [ends_bind, ends_modify, ends_fail]
      exact hE content errno hok (.inl hfails)
    · rename_i hfails
      rw [ends_bind]
      exact ends_write (fun errno hwrite => hE content errno hok (.inr hwrite))
        fun hwrite => ends_pure.mpr (hQ content hok hfails hwrite)
  · cases hc : contentAt w h.fs src with
    | error e =>
      rw [hc] at herr
      cases herr
      exact hread e hc
    | ok c =>
      rw [hc] at herr
      cases herr

/-- A part of what the reader yields is written, however the copying ends. -/
theorem ends_copyFrom {dst : Path} {r : Reader} {limit : Nat} {Q : Nat → Host → Prop}
    (hE : ∀ err n, E err (appendTo w dst ((r.bytes.take limit).take n) h))
    (hQ : r.bytes.length < limit → r.ends = true →
      Q r.bytes.length (appendTo w dst r.bytes h))
    (hlimit : limit ≤ r.bytes.length → Q limit (appendTo w dst (r.bytes.take limit) h)) :
    Ends (copyFrom w dst r limit) h Q E := by
  unfold copyFrom
  rw [ends_bind]
  refine ends_write (fun errno _ => hE _ _) fun _ => ?_
  rw [ends_bind, ends_check]
  refine ⟨fun _ => ?_, fun hends => ends_pure.mpr ?_⟩
  · have hwhole := hE (.msg "unexpected EOF") limit
    rwa [List.take_take, Nat.min_self] at hwhole
  · by_cases hlen : r.bytes.length < limit
    · rw [List.take_of_length_le (Nat.le_of_lt hlen)]
      exact hQ hlen (by simpa [hlen] using hends)
    · have hle : limit ≤ r.bytes.length := Nat.le_of_not_lt hlen
      rw [List.length_take, Nat.min_eq_left hle]
      exact hlimit hle

theorem ends_readFile {p : Path} {Q : Bytes × Option Err → Host → Prop}
    (hQ : ∀ r h', h.Still h' → (r.2 = none → ∃ l, h.fs.follow p = .ok l ∧
      contentAt w h.fs l = .ok r.1) → Q r h') : Ends (readFile w p) h Q E := by
  unfold readFile
  rw [ends_bind, ends_result]
  refine ends_look (fun errno => hQ _ h (.refl h) fun hnone => ?_) fun l h' hstill hl => ?_
  · cases hnone
  · rw [ends_bind, ends_result, ends_read]
    refine ⟨fun content hcontent => ?_, fun err _ => hQ _ h' hstill fun hnone => ?_⟩
    · dsimp only
      split
      · refine hQ _ h' hstill fun hnone => ?_
        cases hnone
      · refine hQ _ h' hstill fun _ => ⟨l, hl, ?_⟩
        rw [hstill.1] at hcontent
        cases hat : contentAt w h.fs l with
        | error errno =>
          rw [hat] at hcontent
          cases hcontent
        | ok bytes =>
          rw [hat] at hcontent
          cases hcontent
          rfl
    · cases hnone

theorem entryAt_of_entry {fs : Fs} {l : Loc} {e : Entry} (h : fs.entry l = some e) :
    entryAt fs l = .ok e := by rw [entryAt, h]

theorem entryAt_eq_ok {fs : Fs} {l : Loc} {e : Entry} (h : entryAt fs l = .ok e) :
    fs.entry l = some e := by
  unfold entryAt at h
  split at h
  · rename_i e' he'
    cases h
    exact he'
  · cases h

theorem ends_readDir {p : Path} {Q : List String → Host → Prop} (hE : ∀ errno, E (.sys errno) h)
    (hQ : ∀ l attr h', h.Still h' → h.fs.follow p = .ok l → h.fs.entry l = some (.dir attr) →
      Q (h.fs.names l) h') : Ends (readDir w p) h Q E := by
  refine ends_look hE fun names h' hstill hnames => ?_
  obtain ⟨l, hl, hnames⟩ := bind_eq_ok hnames
  split at hnames
  · rename_i attr hattr
    cases hnames
    exact hQ l attr h' hstill hl hattr
  · cases hnames

theorem ends_remove {p : Path} {Q : Unit → Host → Prop} (hE : ∀ errno, E (.sys errno) h)
    (hQ : ∀ l hl e, h.fs.locate p = .ok l → h.fs.entry l = some e →
      ¬ (e.isDir = true ∧ h.fs.names l ≠ []) → w.fails (.remove p) = none →
        Q () (removed w h l hl [])) :
    Ends (remove w p) h Q E := by
  refine ends_effect (fun errno _ => hE errno) fun a fs ls hfails hf => ?_
  cases hl : h.fs.locate p with
  | error err =>
    rw [hl] at hf
    cases hf
  | ok l =>
    rw [hl] at hf
    change (entryAt h.fs l >>= fun e => _) = _ at hf
    obtain ⟨e, he, hf⟩ := bind_eq_ok hf
    have hentry := entryAt_eq_ok he
    split at hf
    · cases hf
    · rename_i hne
      split at hf
      · cases hf
      · rename_i hempty
        cases hf
        exact hQ l hne e hl hentry hempty hfails

/-- A file that is there is removed, unless the call fails. -/
theorem ends_remove_file {p : Path} {l : Loc} {e : Entry} {Q : Unit → Host → Prop}
    (hlocate : h.fs.locate p = .ok l) (hentry : h.fs.entry l = some e) (hfile : e.isDir = false)
    (hl : l ≠ []) (hE : ∀ errno, w.fails (.remove p) = some errno → E (.sys errno) h)
    (hQ : w.fails (.remove p) = none → Q () (removed w h l hl [])) : Ends (remove w p) h Q E := by
  unfold Ends remove effect
  cases hfails : w.fails (.remove p) with
  | some errno => exact hE errno hfails
  | none =>
    have hkept : ¬ (e.isDir = true ∧ h.fs.names l ≠ []) := fun hdir => by
      rw [hfile] at hdir
      cases hdir.1
    simp only [hlocate, entryAt_of_entry hentry, bind, Except.bind, dif_neg hl, if_neg hkept]
    exact hQ hfails

theorem ends_removeAll {p : Path} {Q : Unit → Host → Prop} (hE : ∀ errno, E (.sys errno) h)
    (hnone : Q () h)
    (hfail : ∀ l hl errno, h.fs.locate p = .ok l → w.fails (.removeAll p) = some errno →
      E (.sys errno) (removed w h l hl (w.leaves p)))
    (hQ : ∀ l hl e, h.fs.locate p = .ok l → w.fails (.removeAll p) = none →
      h.fs.entry l = some e → Q () (removed w h l hl [])) :
    Ends (removeAll w p) h Q E := by
  unfold Ends removeAll
  cases hl : h.fs.locate p with
  | error errno =>
    cases errno with
    | ENOENT => exact hnone
    | _ => exact hE _
  | ok l =>
    dsimp only
    by_cases hne : l = []
    · rw [dif_pos hne]
      exact hE .EINVAL
    · rw [dif_neg hne]
      cases hfails : w.fails (.removeAll p) with
      | some errno => exact hfail l hne errno hl hfails
      | none =>
        cases he : h.fs.entry l with
        | none => exact hnone
        | some e => exact hQ l hne e hl hfails he

/-- The host after an entry was moved. -/
def Host.moved (w : World) (h : Host) (src : Loc) (hsrc : src ≠ []) (t : h.fs.Target src) : Host :=
  ⟨stamp (stamp (h.fs.move src hsrc t) src.dropLast (w.clock h.ticks)) t.dir (w.clock h.ticks),
    h.ticks + 1, src :: t.loc :: h.touched⟩

/-! ## What the calls leave as it is -/

/-- Between the states of a run only entries at locations in `S` were made, changed, replaced or
removed, apart from the times of the directories they are in. -/
structure Host.Within (S : Loc → Prop) (h h' : Host) : Prop where
  same : ∀ l, ¬ S l → (h'.fs.entry l).map Entry.untimed = (h.fs.entry l).map Entry.untimed
  exact : ∀ l, ¬ S l → (∀ k, S k → l ≠ k.dropLast) → h'.fs.entry l = h.fs.entry l
  touched : ∃ ls, h'.touched = ls ++ h.touched ∧ ∀ l ∈ ls, S l

theorem eq_of_untimed {e e' : Entry} (h : e'.untimed = e.untimed) (hdir : e.isDir = false) :
    e' = e := by
  cases e <;> cases e' <;> simp_all [Entry.untimed, Entry.isDir]

namespace Host.Within

variable {S T : Loc → Prop} {h₁ h₂ h₃ : Host}

theorem of_eq (hfs : h₂.fs = h₁.fs) (htouched : h₂.touched = h₁.touched) : Within S h₁ h₂ :=
  ⟨fun _ _ => by rw [hfs], fun _ _ _ => by rw [hfs], [], htouched, nofun⟩

theorem refl (h : Host) : Within S h h := of_eq rfl rfl

theorem trans (h : Within S h₁ h₂) (h' : Within S h₂ h₃) : Within S h₁ h₃ := by
  obtain ⟨ls, hls, hS⟩ := h.touched
  obtain ⟨ls', hls', hS'⟩ := h'.touched
  refine ⟨fun l hl => (h'.same l hl).trans (h.same l hl),
    fun l hl hdir => (h'.exact l hl hdir).trans (h.exact l hl hdir), ls' ++ ls, ?_, ?_⟩
  · rw [hls', hls, List.append_assoc]
  · exact fun l hl => (List.mem_append.mp hl).elim (hS' l) (hS l)

theorem mono (h : Within S h₁ h₂) (hST : ∀ l, S l → T l) : Within T h₁ h₂ := by
  obtain ⟨ls, hls, hS⟩ := h.touched
  exact ⟨fun l hl => h.same l fun hSl => hl (hST l hSl),
    fun l hl hdir => h.exact l (fun hSl => hl (hST l hSl)) fun k hk => hdir k (hST k hk),
    ls, hls, fun l hl => hST l (hS l hl)⟩

/-- Outside, what was there is there, but for the time of a directory. -/
theorem entry_after (h : Within S h₁ h₂) {l : Loc} {e : Entry} (hl : ¬ S l)
    (he : h₁.fs.entry l = some e) : ∃ e', h₂.fs.entry l = some e' ∧ e'.untimed = e.untimed := by
  have hsame := h.same l hl
  rw [he] at hsame
  exact Option.map_eq_some_iff.mp hsame

/-- Outside, what is there was there. -/
theorem entry_before (h : Within S h₁ h₂) {l : Loc} {e : Entry} (hl : ¬ S l)
    (he : h₂.fs.entry l = some e) : ∃ e', h₁.fs.entry l = some e' ∧ e'.untimed = e.untimed := by
  have hsame := h.same l hl
  rw [he] at hsame
  exact Option.map_eq_some_iff.mp hsame.symm

/-- Outside, a directory stays one. -/
theorem dir (h : Within S h₁ h₂) {l : Loc} (hl : ¬ S l)
    (hdir : ∃ attr, h₁.fs.entry l = some (.dir attr)) :
    ∃ attr, h₂.fs.entry l = some (.dir attr) := by
  obtain ⟨attr, hattr⟩ := hdir
  obtain ⟨e, he, hun⟩ := h.entry_after hl hattr
  cases e with
  | dir attr' => exact ⟨attr', he⟩
  | _ => cases hun

theorem none_iff (h : Within S h₁ h₂) {l : Loc} (hl : ¬ S l) :
    h₂.fs.entry l = none ↔ h₁.fs.entry l = none := by
  have hsame := h.same l hl
  cases he : h₂.fs.entry l <;> cases he' : h₁.fs.entry l <;> simp_all

/-- Outside, anything but a directory stays as it is. -/
theorem eq_of_not_dir (h : Within S h₁ h₂) {l : Loc} {e : Entry} (hl : ¬ S l)
    (he : h₁.fs.entry l = some e) (hdir : e.isDir = false) : h₂.fs.entry l = some e := by
  obtain ⟨e', he', hun⟩ := h.entry_after hl he
  rw [he', eq_of_untimed hun hdir]

end Host.Within

theorem untimed_stamp (fs : Fs) (l l' : Loc) (time : Nat) :
    ((stamp fs l time).entry l').map Entry.untimed = (fs.entry l').map Entry.untimed := by
  change (if l' = l then (fs.entry l).map (Entry.stamped time) else fs.entry l').map _ = _
  split
  · rename_i hl
    rw [hl, Option.map_map]
    congr 1
    funext e
    exact Entry.untimed_stamped time e
  · rfl

theorem entry_stamp_of_ne {fs : Fs} {l l' : Loc} {time : Nat} (hne : l' ≠ l) :
    (stamp fs l time).entry l' = fs.entry l' := if_neg hne

theorem within_made (v : h.fs.Vacant) (e : Entry) : h.Within (· = v.loc) (h.made w v e) := by
  refine ⟨fun l hl => ?_, fun l hl hdir => ?_, [v.loc], rfl, by simp⟩
  · rw [Host.made, untimed_stamp]
    change (if l = v.loc then some e else h.fs.entry l).map _ = _
    rw [if_neg hl]
  · have hne : l ≠ v.dir := by simpa [Fs.Vacant.loc] using hdir v.loc rfl
    rw [Host.made, entry_stamp_of_ne hne]
    exact if_neg hl

theorem within_changed (l : Loc) (f : Entry → Entry)
    (hf : ∀ attr, ∃ attr', f (.dir attr) = .dir attr') : h.Within (· = l) (h.changed l f hf) := by
  refine ⟨fun l' hl => ?_, fun l' hl _ => if_neg hl, [l], rfl, by simp⟩
  change (if l' = l then (h.fs.entry l).map f else h.fs.entry l').map _ = _
  rw [if_neg hl]

/-- What is there after bytes were appended to a file. -/
theorem entry_appendTo {p : Path} {l : Loc} {attr : Attr} {content : Bytes} (bytes : Bytes)
    (hp : h.fs.follow p = .ok l) (hfile : h.fs.entry l = some (.file attr content)) (k : Loc) :
    (appendTo w p bytes h).fs.entry k =
      if k = l then some (.file { attr with mtime := w.clock h.ticks } (content ++ bytes))
      else h.fs.entry k := by
  unfold appendTo
  rw [hp]
  dsimp only [Fs.alter]
  rw [hfile]
  rfl

theorem within_appendTo {p : Path} {l : Loc} (bytes : Bytes) (hp : h.fs.follow p = .ok l) :
    h.Within (· = l) (appendTo w p bytes h) := by
  unfold appendTo
  rw [hp]
  refine ⟨fun l' hl => ?_, fun l' hl _ => if_neg hl, [l], rfl, by simp⟩
  dsimp only [Fs.alter]
  rw [if_neg hl]

theorem within_removed (l : Loc) (hl : l ≠ []) (left : List Loc) :
    h.Within (l <+: ·) (removed w h l hl left) := by
  refine ⟨fun l' hl' => ?_, fun l' hl' hdir => ?_, [l], rfl, by simp⟩
  · rw [removed, untimed_stamp]
    dsimp only [Fs.erase]
    rw [if_neg fun hgone => hl' hgone.1]
  · rw [removed, entry_stamp_of_ne (hdir l (List.prefix_refl l))]
    exact if_neg fun hgone => hl' hgone.1

end

end LukePanel.Library.Syscalls
