import LukePanel.Library.Machine
import LukePanel.Library.SlashPath
import Mathlib.Data.List.Infix

/-! # Extracting a panel backup

`extractPanelBackupArchive` of `internal/server/backup.go` as a machine: one step reads the
next header, creates the entry, writes a chunk of its content or closes the file, and each file
operation may fail. The stream is what `archive/tar` yields for an upload. -/
namespace LukePanel.Server.PanelBackup
open LukePanel.Library.Machine LukePanel.Library.SlashPath

def maxPanelBackupFiles : Nat := 10000

/-- `2 << 30`. -/
def maxPanelBackupBytes : Int64 := 2147483648

def panelBackupDataRoots : List String :=
  ["audit.jsonl", "audit.jsonl.1", "audit.jsonl.2", "audit.jsonl.3", "audit.jsonl.4",
    "audit.jsonl.5", "audit.jsonl.6", "file-preferences.json", "snapshots", "backups", "recycle"]

/-- `filepath.Clean(header.Name)` is given by its elements. -/
def allowedPanelBackupEntry (parts : List String) : Bool :=
  match parts with
  | ["manifest.json"] | ["panel", "config.json"] | ["panel"] | ["data"] => true
  | "data" :: root :: _ => root ∈ panelBackupDataRoots
  | _ => false

/-! ## What the tar reader yields -/

inductive Typeflag where
  | reg | regA | link | symlink | char | block | dir | fifo
  | other (flag : UInt8)
  deriving DecidableEq, Repr

structure Header where
  name : String
  typeflag : Typeflag
  size : Int64
  deriving DecidableEq, Repr

/-- The bytes that belong to an entry; `archive/tar` reads none for these types, whatever size
their header declares. -/
def Header.contentSize (h : Header) : Nat :=
  match h.typeflag with
  | .link | .symlink | .char | .block | .dir | .fifo => 0
  | _ => h.size.toInt.toNat

/-- The entries of an archive. An entry whose content breaks off is the last one. -/
inductive Stream where
  | eof
  /-- `Next` fails. -/
  | broken
  | entry (h : Header) (body : List UInt8) (full : body.length = h.contentSize) (rest : Stream)
  | cut (h : Header) (body : List UInt8) (short : body.length < h.contentSize)

/-! ## The destination -/

/-- The tree below the temporary directory, which is empty at first. The file that is open for
writing is the first one of `files`. -/
structure Destination where
  dirs : List (List String)
  files : List (List String × List UInt8)

namespace Destination

def bytesWritten (d : Destination) : Nat := d.files.foldr (fun f n => f.2.length + n) 0

def isFile (d : Destination) (path : List String) : Bool := d.files.any fun f => f.1 == path

/-- `os.MkdirAll`: it fails where an element of the path is a file. -/
def mkdirAll (d : Destination) (path : List String) : Option Destination :=
  if path.inits.any d.isFile then none
  else some { d with dirs := path.inits.filter (· ∉ d.dirs) ++ d.dirs }

/-- `os.OpenFile` with `O_CREATE|O_EXCL`. -/
def openExcl (d : Destination) (path : List String) : Option Destination :=
  if d.isFile path ∨ path ∈ d.dirs then none else some { d with files := (path, []) :: d.files }

def write (d : Destination) (chunk : List UInt8) : Destination :=
  match d.files with
  | [] => d
  | (path, content) :: rest => { d with files := (path, content ++ chunk) :: rest }

end Destination

/-! ## The machine -/

inductive Phase where
  /-- Before `tr.Next`. -/
  | next
  /-- The entry has passed every check. -/
  | create (h : Header) (path : List String) (body : List UInt8) (short : Bool)
  /-- Inside `io.CopyN`, with what the stream still holds of the entry. -/
  | copy (remaining : List UInt8) (short : Bool)
  /-- Returned: `none` without an error. -/
  | done (err : Option String)

/-- `declared` sums, without a bound, the sizes the limit check let pass; `materialised`
counts the entries created. The code keeps neither. -/
structure State where
  stream : Stream
  files : Nat
  total : Int64
  destination : Destination
  phase : Phase
  declared : Nat
  materialised : Nat

def start (stream : Stream) : State := ⟨stream, 0, 0, ⟨[], []⟩, .next, 0, 0⟩

def State.fail (s : State) (message : String) : State := { s with phase := .done (some message) }

/-- The checks on a header, in the order of the source. -/
def State.header (s : State) (h : Header) (body : List UInt8) (short : Bool) (rest : Stream) :
    State :=
  let name := clean h.name
  if name.parts = [] ∨ name.rooted ∨ name.climbs then s.fail "备份包含不安全路径"
  else if h.typeflag = .symlink ∨ h.typeflag = .link then s.fail "备份不能包含链接文件"
  else if !allowedPanelBackupEntry name.parts then { s with stream := rest }
  else if h.size < 0 then s.fail "备份包含无效文件大小"
  else
    let s := { s with files := s.files + 1, total := s.total + h.size }
    if maxPanelBackupFiles < s.files ∨ maxPanelBackupBytes < s.total then
      s.fail "备份内容超过安全限制"
    else
      let s := { s with declared := s.declared + h.size.toInt.toNat }
      -- `filepath.Rel` of the joined path is the cleaned name again
      if name.climbs then s.fail "备份路径越界"
      else match h.typeflag with
      | .dir | .reg | .regA =>
        { s with stream := rest, phase := .create h name.parts body short }
      | _ => s.fail "备份包含不支持的文件类型"

/-- How the file operations of one entry end. -/
inductive Io where
  | ok
  | mkdirFails
  | openFails
  deriving DecidableEq, Repr

def State.created (s : State) (destination : Destination) (phase : Phase) : State :=
  { s with destination, phase, materialised := s.materialised + 1 }

/-- The body of the `switch` up to the copy. -/
def State.create (s : State) (h : Header) (path : List String) (body : List UInt8)
    (short : Bool) (io : Io) : State :=
  match h.typeflag with
  | .dir =>
    match io, s.destination.mkdirAll path with
    | .ok, some d => s.created d .next
    | _, _ => s.fail "恢复临时目录失败"
  | _ =>
    match io, s.destination.mkdirAll path.dropLast with
    | .mkdirFails, _ | _, none => s.fail "恢复临时目录失败"
    | .openFails, some d => { s with destination := d }.fail "恢复临时文件失败"
    | .ok, some d =>
      match d.openExcl path with
      | none => { s with destination := d }.fail "恢复临时文件失败"
      | some d => s.created d (.copy body short)

inductive Act where
  | next
  | create (io : Io)
  /-- `io.CopyN` writes a chunk. -/
  | write (n : Nat)
  /-- `io.CopyN` has returned and the file is closed; `ok` is false where writing or closing
  failed. -/
  | close (ok : Bool)

def step (s : State) (a : Act) : Option State :=
  match s.phase, a with
  | .next, .next =>
    match s.stream with
    | .eof => some { s with phase := .done none }
    | .broken => some (s.fail "读取备份失败")
    | .entry h body _ rest => some (s.header h body false rest)
    | .cut h body _ => some (s.header h body true .broken)
  | .create h path body short, .create io => some (s.create h path body short io)
  | .copy remaining short, .write n =>
    some { s with
      destination := s.destination.write (remaining.take n)
      phase := .copy (remaining.drop n) short }
  | .copy remaining short, .close ok =>
    if ok && !remaining.isEmpty then none
    else if ok && !short then some { s with phase := .next }
    else some (s.fail "写入恢复临时文件失败")
  | _, _ => none

/-! ## What reading a header does -/

/-- The size of the entry is added to the total. -/
def Header.counted (h : Header) : Bool :=
  let name := clean h.name
  !(name.parts.isEmpty || name.rooted || name.climbs) &&
    !(h.typeflag == .symlink || h.typeflag == .link) &&
    allowedPanelBackupEntry name.parts && !decide (h.size < 0)

def Phase.returned : Phase → Bool
  | .done _ => true
  | _ => false

/-- The bytes the entry in hand may still write. -/
def Phase.allowance : Phase → Nat
  | .create _ _ body _ => body.length
  | .copy remaining _ => remaining.length
  | _ => 0

/-- One while an entry waits to be created. -/
def Phase.slots : Phase → Nat
  | .create .. => 1
  | _ => 0

/-- A header ends the extraction, is skipped, or is counted and let past the limits. -/
theorem header_cases (s : State) (h : Header) (body : List UInt8) (short : Bool) (rest : Stream) :
    (∃ files total message, s.header h body short rest =
        { s with files, total, phase := .done (some message) } ∧
        (h.counted = true → maxPanelBackupFiles < s.files + 1 ∨
          maxPanelBackupBytes < s.total + h.size)) ∨
    (h.counted = false ∧ s.header h body short rest = { s with stream := rest }) ∨
    (h.counted = true ∧ s.files + 1 ≤ maxPanelBackupFiles ∧
      ¬ maxPanelBackupBytes < s.total + h.size ∧
      ∃ stream phase, s.header h body short rest =
        { s with
          stream, phase
          files := s.files + 1
          total := s.total + h.size
          declared := s.declared + h.size.toInt.toNat } ∧
        phase.allowance ≤ body.length ∧ (phase.returned = false → phase.slots = 1)) := by
  unfold State.header
  simp only
  split
  · rename_i hbad
    refine Or.inl ⟨s.files, s.total, _, rfl, fun hc => ?_⟩
    simp only [Header.counted, Bool.and_eq_true, Bool.not_eq_true', Bool.or_eq_false_iff] at hc
    obtain ⟨⟨⟨⟨⟨he, hr⟩, hu⟩, _⟩, _⟩, _⟩ := hc
    simp [hr, hu] at hbad
    simp [hbad] at he
  · rename_i hname
    split
    · rename_i hlink
      refine Or.inl ⟨s.files, s.total, _, rfl, fun hc => ?_⟩
      simp only [Header.counted, Bool.and_eq_true, Bool.not_eq_true', Bool.or_eq_false_iff,
        beq_eq_false_iff_ne] at hc
      rcases hlink with hl | hl
      · exact absurd hl hc.1.1.2.1
      · exact absurd hl hc.1.1.2.2
    · rename_i hlink
      split
      · rename_i hallow
        refine Or.inr (Or.inl ⟨?_, rfl⟩)
        rw [Bool.not_eq_true'] at hallow
        simp [Header.counted, hallow]
      · rename_i hallow
        split
        · rename_i hneg
          refine Or.inl ⟨s.files, s.total, _, rfl, fun hc => ?_⟩
          simp [Header.counted, hneg] at hc
        · rename_i hneg
          split
          · rename_i hover
            exact Or.inl ⟨s.files + 1, s.total + h.size, _, rfl, fun _ => hover⟩
          · rename_i hover
            obtain ⟨hfiles, htotal⟩ := not_or.mp hover
            have hcount : h.counted = true := by
              simp only [not_or, Bool.not_eq_true] at hname hlink
              simp only [Bool.not_eq_true', Bool.not_eq_false] at hallow
              simp [Header.counted, hname.1, hname.2.1, hname.2.2, hlink.1, hlink.2, hallow, hneg]
            refine Or.inr (Or.inr ⟨hcount, by omega, htotal, ?_⟩)
            split
            · exact ⟨_, _, rfl, Nat.zero_le _, nofun⟩
            · split <;> first
                | exact ⟨rest, .create h (clean h.name).parts body short, rfl, Nat.le_refl _,
                    fun _ => rfl⟩
                | exact ⟨_, _, rfl, Nat.zero_le _, nofun⟩

/-! ## What creating and writing do -/

theorem mkdirAll_files {d d' : Destination} {path : List String} (h : d.mkdirAll path = some d') :
    d'.files = d.files := by
  unfold Destination.mkdirAll at h
  split at h
  · cases h
  · cases h; rfl

theorem openExcl_bytes {d d' : Destination} {path : List String} (h : d.openExcl path = some d') :
    d'.bytesWritten = d.bytesWritten ∧ d'.files = (path, []) :: d.files := by
  unfold Destination.openExcl at h
  split at h
  · cases h
  · cases h
    simp [Destination.bytesWritten]

theorem write_bytes (d : Destination) (chunk : List UInt8) :
    (d.write chunk).bytesWritten ≤ d.bytesWritten + chunk.length := by
  unfold Destination.write
  split
  · exact Nat.le_add_right _ _
  · rename_i path content rest hfiles
    simp only [Destination.bytesWritten, hfiles, List.foldr_cons, List.length_append]
    omega

theorem write_bytes_open {d : Destination} {path : List String} {content : List UInt8}
    {rest : List (List String × List UInt8)} (h : d.files = (path, content) :: rest)
    (chunk : List UInt8) : (d.write chunk).bytesWritten = d.bytesWritten + chunk.length := by
  simp only [Destination.write, Destination.bytesWritten, h, List.foldr_cons, List.length_append]
  omega

/-- Creating an entry writes nothing; it uses up the slot of the entry, and a file may then be
written as far as its body goes. -/
theorem create_cases (s : State) (h : Header) (path : List String) (body : List UInt8)
    (short : Bool) (io : Io) :
    ∃ destination phase, destination.bytesWritten = s.destination.bytesWritten ∧
      phase.allowance ≤ body.length ∧ phase.slots = 0 ∧
      (s.create h path body short io = { s with destination, phase } ∧ phase.returned = true ∨
        s.create h path body short io = s.created destination phase) := by
  unfold State.create
  split
  · split
    · rename_i d hd
      refine ⟨d, .next, ?_, Nat.zero_le _, rfl, Or.inr rfl⟩
      simp only [Destination.bytesWritten, mkdirAll_files hd]
    · exact ⟨s.destination, .done _, rfl, Nat.zero_le _, rfl, Or.inl ⟨rfl, rfl⟩⟩
  · split
    · exact ⟨s.destination, .done _, rfl, Nat.zero_le _, rfl, Or.inl ⟨rfl, rfl⟩⟩
    · exact ⟨s.destination, .done _, rfl, Nat.zero_le _, rfl, Or.inl ⟨rfl, rfl⟩⟩
    · rename_i d hd
      refine ⟨d, .done _, ?_, Nat.zero_le _, rfl, Or.inl ⟨rfl, rfl⟩⟩
      simp only [Destination.bytesWritten, mkdirAll_files hd]
    · rename_i d hd
      have hbytes : d.bytesWritten = s.destination.bytesWritten := by
        simp only [Destination.bytesWritten, mkdirAll_files hd]
      split
      · exact ⟨d, .done _, hbytes, Nat.zero_le _, rfl, Or.inl ⟨rfl, rfl⟩⟩
      · rename_i d' hd'
        exact ⟨d', .copy body short, (openExcl_bytes hd').1.trans hbytes, Nat.le_refl _, rfl,
          Or.inr rfl⟩

/-! ## The invariant of every run -/

/-- The total is the sum of the sizes let past, modulo `2 ^ 64`; what is written and may still
be written of the entry in hand is covered by that sum; and the entries created are counted. -/
structure Inv (s : State) : Prop where
  total : s.phase.returned = false →
    s.total.toInt = (s.declared : Int).bmod 18446744073709551616
  bytes : s.destination.bytesWritten + s.phase.allowance ≤ s.declared
  entries : s.materialised + s.phase.slots ≤ maxPanelBackupFiles
  files : s.phase.returned = false →
    s.materialised + s.phase.slots ≤ s.files ∧ s.files ≤ maxPanelBackupFiles

theorem inv_start (stream : Stream) : Inv (start stream) :=
  ⟨fun _ => by simp [start], Nat.le_refl _, Nat.zero_le _,
    fun _ => ⟨Nat.le_refl _, Nat.zero_le _⟩⟩

theorem inv_returned {s : State} (h : Inv s) (files : Nat) (total : Int64) (err : Option String) :
    Inv { s with files, total, phase := .done err } := by
  have hb := h.bytes
  have he := h.entries
  exact ⟨nofun, by simp only [Phase.allowance]; omega, by simp only [Phase.slots]; omega, nofun⟩

theorem counted_size {h : Header} (hc : h.counted = true) :
    (h.size.toInt.toNat : Int) = h.size.toInt := by
  simp only [Header.counted, Bool.and_eq_true, Bool.not_eq_true', decide_eq_false_iff_not,
    Int64.lt_iff_toInt_lt] at hc
  have := hc.2
  change ¬ h.size.toInt < 0 at this
  omega

theorem inv_header {s : State} {h : Header} {body : List UInt8} {short : Bool} {rest : Stream}
    (hi : Inv s) (hp : s.phase = .next) (hbody : body.length ≤ h.contentSize) :
    Inv (s.header h body short rest) := by
  have hb := hi.bytes
  have he := hi.entries
  have hf := hi.files (by rw [hp]; rfl)
  have ht := hi.total (by rw [hp]; rfl)
  simp only [hp, Phase.allowance, Phase.slots] at hb he hf
  rcases header_cases s h body short rest with ⟨files, total, message, heq, _⟩ | ⟨_, heq⟩ | hpass
  · rw [heq]
    exact inv_returned hi files total _
  · rw [heq]
    exact ⟨hi.total, hi.bytes, hi.entries, hi.files⟩
  · obtain ⟨hc, hfiles, _, stream, phase, heq, hallow, hslot⟩ := hpass
    have hsize := counted_size hc
    have hcontent : h.contentSize ≤ h.size.toInt.toNat := by
      unfold Header.contentSize
      split <;> omega
    rw [heq]
    refine ⟨fun _ => ?_, ?_, ?_, fun hr => ?_⟩
    · simp only
      rw [Int64.toInt_add, ht, Int.natCast_add, hsize]
      exact Int.bmod_add_bmod
    · simp only
      omega
    · cases hr : phase.returned with
      | true =>
        cases phase <;> simp only [Phase.returned, Bool.false_eq_true] at hr
        simp only [Phase.slots]
        omega
      | false =>
        simp only [hslot hr]
        omega
    · simp only at hr
      simp only [hslot hr]
      omega

theorem inv_step {s t : State} {a : Act} (hi : Inv s) (hs : step s a = some t) : Inv t := by
  have hb := hi.bytes
  have he := hi.entries
  have hf := hi.files
  have ht := hi.total
  unfold step at hs
  split at hs
  · rename_i hp
    split at hs
    · cases hs; exact inv_returned hi _ _ _
    · cases hs; exact inv_returned hi _ _ _
    · rename_i h body full rest hst
      cases hs
      exact inv_header hi hp (Nat.le_of_eq full)
    · rename_i h body cut hst
      cases hs
      exact inv_header hi hp (Nat.le_of_lt cut)
  · rename_i h path body short io hp
    simp only [hp, Phase.returned, Phase.allowance, Phase.slots, forall_const] at hb he hf ht
    cases hs
    obtain ⟨d, phase, hbytes, hallow, hslot, heq | heq⟩ := create_cases s h path body short io
    · rw [heq.1]
      refine ⟨fun hr => absurd hr (by simp [heq.2]), ?_, ?_, fun hr => absurd hr (by simp [heq.2])⟩
      · simp only; omega
      · simp only; omega
    · rw [heq]
      refine ⟨fun _ => ht, ?_, ?_, fun _ => ?_⟩
      · simp only [State.created]; omega
      · simp only [State.created]; omega
      · simp only [State.created]; omega
  · rename_i remaining short n hp
    simp only [hp, Phase.returned, Phase.allowance, Phase.slots, forall_const] at hb he hf ht
    cases hs
    refine ⟨fun _ => ht, ?_, he, fun _ => hf⟩
    have hwrite := write_bytes s.destination (remaining.take n)
    simp only [Phase.allowance, List.length_take, List.length_drop] at hwrite ⊢
    omega
  · rename_i remaining short ok hp
    simp only [hp, Phase.returned, Phase.allowance, Phase.slots, forall_const] at hb he hf ht
    split at hs
    · cases hs
    · split at hs
      · cases hs
        exact ⟨fun _ => ht, by simp only [Phase.allowance]; omega, he, fun _ => hf⟩
      · cases hs
        exact inv_returned hi _ _ _
  · cases hs

theorem inv_reaches {stream : Stream} {s : State} (h : Reaches step Free (start stream) s) :
    Inv s :=
  h.invariant (inv_start stream) fun _ _ _ hi _ hs => inv_step hi hs

/-! ## Nothing outside the destination -/

/-- Every path that is created, or is to be, goes down from the destination by names. -/
structure Below (s : State) : Prop where
  files : ∀ f ∈ s.destination.files, ∀ part ∈ f.1, Named part
  dirs : ∀ p ∈ s.destination.dirs, ∀ part ∈ p, Named part
  next : ∀ h path body short, s.phase = .create h path body short → ∀ part ∈ path, Named part

/-- A header that is let through has a name that does not climb. -/
theorem header_path (s : State) (h : Header) (body : List UInt8) (short : Bool) (rest : Stream) :
    (s.header h body short rest).destination = s.destination ∧
      ((s.header h body short rest).phase = s.phase ∨
        (∃ message, (s.header h body short rest).phase = .done (some message)) ∨
        (clean h.name).climbs = false ∧
          (s.header h body short rest).phase = .create h (clean h.name).parts body short) := by
  unfold State.header
  dsimp only
  split
  · exact ⟨rfl, .inr (.inl ⟨_, rfl⟩)⟩
  · split
    · exact ⟨rfl, .inr (.inl ⟨_, rfl⟩)⟩
    · split
      · exact ⟨rfl, .inl rfl⟩
      · split
        · exact ⟨rfl, .inr (.inl ⟨_, rfl⟩)⟩
        · split
          · exact ⟨rfl, .inr (.inl ⟨_, rfl⟩)⟩
          · split
            · exact ⟨rfl, .inr (.inl ⟨_, rfl⟩)⟩
            · rename_i hclimbs
              have hstays : (clean h.name).climbs = false := by simpa using hclimbs
              split
              · exact ⟨rfl, .inr (.inr ⟨hstays, rfl⟩)⟩
              · exact ⟨rfl, .inr (.inr ⟨hstays, rfl⟩)⟩
              · exact ⟨rfl, .inr (.inr ⟨hstays, rfl⟩)⟩
              · exact ⟨rfl, .inr (.inl ⟨_, rfl⟩)⟩

theorem Below.header {s : State} (hb : Below s) (hp : s.phase = .next) (h : Header)
    (body : List UInt8) (short : Bool) (rest : Stream) : Below (s.header h body short rest) := by
  obtain ⟨hdest, hphase⟩ := header_path s h body short rest
  refine ⟨hdest ▸ hb.files, hdest ▸ hb.dirs, fun h' path body' short' hcreate => ?_⟩
  rcases hphase with hsame | ⟨_, hdone⟩ | ⟨hstays, hnew⟩
  · rw [hsame, hp] at hcreate
    cases hcreate
  · rw [hdone] at hcreate
    cases hcreate
  · rw [hnew] at hcreate
    cases hcreate
    exact named_of_not_climbs hstays

theorem mkdirAll_named {d d' : Destination} {path : List String}
    (hdirs : ∀ p ∈ d.dirs, ∀ part ∈ p, Named part) (hpath : ∀ part ∈ path, Named part)
    (h : d.mkdirAll path = some d') : ∀ p ∈ d'.dirs, ∀ part ∈ p, Named part := by
  unfold Destination.mkdirAll at h
  split at h
  · cases h
  · cases h
    intro p hp part hpart
    rcases List.mem_append.mp hp with hp | hp
    · have hpre := (List.mem_inits _ _).mp (List.mem_filter.mp hp).1
      exact hpath part (hpre.subset hpart)
    · exact hdirs p hp part hpart

/-- Creating an entry adds its path and the directories above it. -/
theorem Below.create {s : State} {h : Header} {path : List String} {body : List UInt8}
    {short : Bool} (hb : Below s) (hp : s.phase = .create h path body short) (io : Io) :
    Below (s.create h path body short io) := by
  have hpath := hb.next h path body short hp
  have habove : ∀ part ∈ path.dropLast, Named part := fun part hpart =>
    hpath part (List.mem_of_mem_dropLast hpart)
  unfold State.create
  split
  · split
    · rename_i d hd
      refine ⟨?_, mkdirAll_named hb.dirs hpath hd, nofun⟩
      intro f hf
      exact hb.files f (mkdirAll_files hd ▸ hf)
    · exact ⟨hb.files, hb.dirs, nofun⟩
  · split
    · exact ⟨hb.files, hb.dirs, nofun⟩
    · exact ⟨hb.files, hb.dirs, nofun⟩
    · rename_i d hd
      refine ⟨?_, mkdirAll_named hb.dirs habove hd, nofun⟩
      intro f hf
      exact hb.files f (mkdirAll_files hd ▸ hf)
    · rename_i d hd
      have hfiles : ∀ f ∈ d.files, ∀ part ∈ f.1, Named part := fun f hf =>
        hb.files f (mkdirAll_files hd ▸ hf)
      have hdirs := mkdirAll_named hb.dirs habove hd
      split
      · exact ⟨hfiles, hdirs, nofun⟩
      · rename_i d' hd'
        refine ⟨fun f hf => ?_, ?_, nofun⟩
        · have hopened : f ∈ (path, []) :: d.files := (openExcl_bytes hd').2 ▸ hf
          rcases List.mem_cons.mp hopened with rfl | hf
          · exact hpath
          · exact hfiles f hf
        · unfold Destination.openExcl at hd'
          split at hd'
          · cases hd'
          · cases hd'
            exact hdirs

theorem write_named {d : Destination} (hfiles : ∀ f ∈ d.files, ∀ part ∈ f.1, Named part)
    (chunk : List UInt8) : ∀ f ∈ (d.write chunk).files, ∀ part ∈ f.1, Named part := by
  unfold Destination.write
  split
  · exact hfiles
  · rename_i path content rest hlist
    rw [hlist] at hfiles
    intro f hf
    rcases List.mem_cons.mp hf with rfl | hf
    · exact hfiles (path, content) List.mem_cons_self
    · exact hfiles f (List.mem_cons_of_mem _ hf)

theorem below_step {s t : State} {a : Act} (hb : Below s) (hs : step s a = some t) : Below t := by
  unfold step at hs
  split at hs
  · rename_i hp
    split at hs
    · cases hs; exact ⟨hb.files, hb.dirs, nofun⟩
    · cases hs; exact ⟨hb.files, hb.dirs, nofun⟩
    · cases hs; exact hb.header hp _ _ _ _
    · cases hs; exact hb.header hp _ _ _ _
  · rename_i hp
    cases hs
    exact hb.create hp _
  · cases hs
    refine ⟨write_named hb.files _, ?_, nofun⟩
    intro p hp
    refine hb.dirs p ?_
    revert hp
    simp only [Destination.write]
    split <;> exact id
  · split at hs
    · cases hs
    · split at hs
      · cases hs; exact ⟨hb.files, hb.dirs, nofun⟩
      · cases hs; exact ⟨hb.files, hb.dirs, nofun⟩
  · cases hs

/-- **The extraction stays below its destination.** For every stream and whatever operations
fail, what is created goes down from the destination by names that are none of `.` and `..`. -/
theorem extraction_stays_below {stream : Stream} {s : State}
    (h : Reaches step Free (start stream) s) : Below s :=
  h.invariant ⟨nofun, nofun, nofun⟩ fun _ _ _ hb _ hs => below_step hb hs

/-! ## The limits -/

/-- Nothing past the limits is written, created or let past the check. -/
structure Limits (s : State) : Prop where
  written : (s.destination.bytesWritten : Int) ≤ maxPanelBackupBytes.toInt
  materialised : s.materialised ≤ maxPanelBackupFiles
  declared : (s.declared : Int) ≤ maxPanelBackupBytes.toInt

def Stream.header? : Stream → Option Header
  | .entry h .. | .cut h .. => some h
  | _ => none

/-- The next header is counted, there is room for it among the files, and its size takes the
total past the largest `int64`. -/
def Wraps (s : State) : Prop :=
  s.phase = .next ∧ ∃ h, s.stream.header? = some h ∧ h.counted = true ∧
    s.files < maxPanelBackupFiles ∧ 9223372036854775808 ≤ s.total.toInt + h.size.toInt

theorem step_next {s : State} {h : Header} (hp : s.phase = .next)
    (hh : s.stream.header? = some h) : ∃ body short rest,
      step s .next = some (s.header h body short rest) := by
  unfold step
  rw [hp]
  cases hst : s.stream with
  | eof | broken => rw [hst] at hh; cases hh
  | entry h' body full rest => rw [hst] at hh; cases hh; exact ⟨body, false, rest, rfl⟩
  | cut h' body short => rw [hst] at hh; cases hh; exact ⟨body, true, .broken, rfl⟩

theorem declared_header (s : State) (h : Header) (body : List UInt8) (short : Bool)
    (rest : Stream) :
    (s.header h body short rest).declared = s.declared ∨
      h.counted = true ∧ s.files < maxPanelBackupFiles ∧
        ¬ maxPanelBackupBytes < s.total + h.size ∧
        (s.header h body short rest).declared = s.declared + h.size.toInt.toNat := by
  rcases header_cases s h body short rest with ⟨_, _, _, heq, _⟩ | ⟨_, heq⟩ | hpass
  · exact Or.inl (by rw [heq])
  · exact Or.inl (by rw [heq])
  · obtain ⟨hc, hfiles, htotal, _, _, heq, _, _⟩ := hpass
    exact Or.inr ⟨hc, hfiles, htotal, by rw [heq]⟩

/-- Only a header that is let past the limits adds to the declared sizes. -/
theorem declared_step {s t : State} {a : Act} (hs : step s a = some t) :
    t.declared = s.declared ∨ s.phase = .next ∧ ∃ h, s.stream.header? = some h ∧
      h.counted = true ∧ s.files < maxPanelBackupFiles ∧
      ¬ maxPanelBackupBytes < s.total + h.size ∧
      t.declared = s.declared + h.size.toInt.toNat := by
  unfold step at hs
  split at hs
  · rename_i hp
    split at hs
    · cases hs; exact Or.inl rfl
    · cases hs; exact Or.inl rfl
    · rename_i h body full rest hst
      cases hs
      exact (declared_header s h body false rest).imp id fun hd => ⟨hp, h, by rw [hst]; rfl, hd⟩
    · rename_i h body cut hst
      cases hs
      exact (declared_header s h body true .broken).imp id fun hd => ⟨hp, h, by rw [hst]; rfl, hd⟩
  · rename_i h path body short io hp
    cases hs
    obtain ⟨_, _, _, _, _, heq | heq⟩ := create_cases s h path body short io
    · exact Or.inl (by rw [heq.1])
    · exact Or.inl (by rw [heq]; rfl)
  · cases hs; exact Or.inl rfl
  · split at hs
    · cases hs
    · split at hs <;> cases hs <;> exact Or.inl rfl
  · cases hs

theorem maxPanelBackupBytes_toInt : maxPanelBackupBytes.toInt = 2147483648 := by decide

/-- The total after a counted header, from exact sums: it is the sum, or it has wrapped. -/
theorem total_add {s : State} {h : Header} (hi : Inv s) (hp : s.phase = .next)
    (hd : (s.declared : Int) ≤ maxPanelBackupBytes.toInt) (hc : h.counted = true) :
    s.total.toInt = s.declared ∧
      (maxPanelBackupBytes < s.total + h.size ↔
        maxPanelBackupBytes.toInt < (s.declared : Int) + h.size.toInt ∧
          (s.declared : Int) + h.size.toInt < 9223372036854775808) := by
  have hsize := counted_size hc
  have hlt := h.size.toInt_lt
  have ht := hi.total (by rw [hp]; rfl)
  rw [maxPanelBackupBytes_toInt] at hd
  have hexact : s.total.toInt = s.declared := by
    rw [ht]
    exact Int.bmod_eq_of_le_mul_two (by omega) (by omega)
  refine ⟨hexact, ?_⟩
  rw [Int64.lt_iff_toInt_lt, Int64.toInt_add, hexact, maxPanelBackupBytes_toInt, Int.bmod_def]
  split <;> omega

theorem limits_of_declared {s : State} (hi : Inv s)
    (hd : (s.declared : Int) ≤ maxPanelBackupBytes.toInt) : Limits s := by
  have hb := hi.bytes
  have he := hi.entries
  exact ⟨by omega, by omega, hd⟩

/-- **The limits hold unless the total wraps.** For every stream, whatever file operations fail
and however the copies are cut into chunks: every reachable state is within the limits exactly
when no reachable state reads a header whose size wraps the total. -/
theorem limits_iff_no_wrap (stream : Stream) :
    (∀ s, Reaches step Free (start stream) s → Limits s) ↔
      ∀ s, Reaches step Free (start stream) s → ¬ Wraps s := by
  constructor
  · intro hlimits s hr hwraps
    obtain ⟨hp, h, hh, hc, hfiles, hwrap⟩ := hwraps
    obtain ⟨body, short, rest, hs⟩ := step_next hp hh
    have hi := inv_reaches hr
    have hd := (hlimits s hr).declared
    have hd' := (hlimits _ (hr.tail trivial hs)).declared
    obtain ⟨hexact, htotal⟩ := total_add hi hp hd hc
    have hsize := counted_size hc
    rw [maxPanelBackupBytes_toInt] at hd hd'
    -- the wrapped total passes the check, so the size counts as let past
    rcases header_cases s h body short rest with ⟨_, _, _, _, hover⟩ | ⟨hskip, _⟩ | hpass
    · rcases hover hc with hover | hover
      · omega
      · have := (htotal.mp hover).2
        omega
    · rw [hc] at hskip
      cases hskip
    · obtain ⟨_, _, _, _, _, heq, _, _⟩ := hpass
      rw [heq] at hd'
      simp only at hd'
      omega
  · intro hwraps s hr
    refine limits_of_declared (inv_reaches hr) ?_
    induction hr with
    | refl => exact (show ((0 : Nat) : Int) ≤ maxPanelBackupBytes.toInt by decide)
    | @tail t u a hr _ hs ih =>
      rcases declared_step hs with heq | ⟨hp, h, hh, hc, hfiles, hpass, heq⟩
      · rw [heq]; exact ih
      · obtain ⟨hexact, htotal⟩ := total_add (inv_reaches hr) hp ih hc
        have hsize := counted_size hc
        have hfits : t.total.toInt + h.size.toInt < 9223372036854775808 := by
          by_contra hwrap
          exact hwraps t hr ⟨hp, h, hh, hc, hfiles, by omega⟩
        rw [htotal] at hpass
        rw [heq]
        omega

/-! ## A body after the wrap -/

/-- A regular file that is let past the limits is to be created next. -/
theorem header_reg (s : State) (name : String) (size : Int64) (parts : List String)
    (body : List UInt8) (short : Bool) (rest : Stream) (hname : clean name = ⟨false, parts⟩)
    (hallow : allowedPanelBackupEntry parts = true) (hsize : ¬ size < 0)
    (hfiles : s.files + 1 ≤ maxPanelBackupFiles)
    (htotal : ¬ maxPanelBackupBytes < s.total + size) :
    s.header ⟨name, .reg, size⟩ body short rest =
      { s with
        stream := rest
        files := s.files + 1
        total := s.total + size
        declared := s.declared + size.toInt.toNat
        phase := .create ⟨name, .reg, size⟩ parts body short } := by
  have hhere : parts ≠ [] ∧ (CleanPath.climbs ⟨false, parts⟩) = false := by
    constructor
    · rintro rfl; cases hallow
    · cases parts with
      | nil => rfl
      | cons part rest =>
        by_contra hup
        obtain rfl : part = ".." := by simpa [CleanPath.climbs] using hup
        cases rest <;> simp [allowedPanelBackupEntry] at hallow
  simp [State.header, hname, hhere.1, hhere.2, hallow, hsize, Nat.not_lt.mpr hfiles, htotal]

/-- A manifest of one byte, and an audit log that declares the largest size; the stream ends
inside the log. -/
def wrappingStream (body : List UInt8) (short : body.length < 9223372036854775807) : Stream :=
  .entry ⟨"manifest.json", .reg, 1⟩ [0] rfl
    (.cut ⟨"data/audit.jsonl", .reg, 9223372036854775807⟩ body short)

/-- The state after the manifest. -/
def manifestWritten (body : List UInt8) (short : body.length < 9223372036854775807) : State :=
  ⟨.cut ⟨"data/audit.jsonl", .reg, 9223372036854775807⟩ body short, 1, 1,
    ⟨[[]], [(["manifest.json"], [0])]⟩, .next, 1, 1⟩

/-- Whatever the stream holds of the log is written. -/
theorem wrapped_body_written (body : List UInt8) (short : body.length < 9223372036854775807) :
    ∃ s, Reaches step Free (start (wrappingStream body short)) s ∧
      s.destination.bytesWritten = 1 + body.length := by
  have hmanifest := header_reg (start (wrappingStream body short)) "manifest.json" 1
    ["manifest.json"] [0] false (.cut ⟨"data/audit.jsonl", .reg, 9223372036854775807⟩ body short)
    (by decide) (by decide) (by decide) (show 0 + 1 ≤ maxPanelBackupFiles by decide)
    (show ¬ maxPanelBackupBytes < (0 : Int64) + 1 by decide)
  have hlog := header_reg (manifestWritten body short) "data/audit.jsonl" 9223372036854775807
    ["data", "audit.jsonl"] body true .broken (by decide) (by decide) (by decide)
    (show 1 + 1 ≤ maxPanelBackupFiles by decide)
    (show ¬ maxPanelBackupBytes < (1 : Int64) + 9223372036854775807 by decide)
  have hwritten : Reaches step Free (start (wrappingStream body short))
      (manifestWritten body short) :=
    (((Reaches.refl.tail (a := .next) trivial (congrArg some hmanifest)).tail
      (a := .create .ok) trivial rfl).tail (a := .write 1) trivial rfl).tail
      (a := .close true) trivial rfl
  have hcreated := (hwritten.tail (a := Act.next) trivial (congrArg some hlog)).tail
    (a := Act.create .ok) trivial rfl
  refine ⟨_, hcreated.tail (a := .write body.length) trivial rfl, ?_⟩
  rw [write_bytes_open rfl, List.take_length, Nat.add_left_inj]
  rfl

/-- More than 2 GiB are written. -/
theorem limit_passed_by_wrap : ∃ s,
    Reaches step Free (start (wrappingStream (List.replicate 2147483648 0)
      (by rw [List.length_replicate]; decide))) s ∧
    maxPanelBackupBytes.toInt < (s.destination.bytesWritten : Int) := by
  obtain ⟨s, hr, hbytes⟩ := wrapped_body_written (List.replicate 2147483648 0)
    (by rw [List.length_replicate]; decide)
  refine ⟨s, hr, ?_⟩
  rw [hbytes, List.length_replicate]
  decide

end LukePanel.Server.PanelBackup
