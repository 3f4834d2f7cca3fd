import LukePanel.Library.Rotation
import Mathlib.Data.List.Induction

/-! # The audit log files

The JSONL files of `internal/server/audit.go`: what `Write` appends to them and how
`rotateIfNeeded` moves them. A file is the list of its events. -/
namespace LukePanel.Server.AuditLog
open LukePanel.Library.Rotation

/-- The texts are bytes as the handlers pass them, and characters where they have been read back. -/
structure AuditEvent (Text : Type) where
  time : Text
  ip : Text
  user : Text
  action : Text
  target : Text
  result : Text
  detail : Text
  deriving DecidableEq, Repr

def AuditEvent.map {Text Text' : Type} (f : Text → Text') (e : AuditEvent Text) : AuditEvent Text' :=
  ⟨f e.time, f e.ip, f e.user, f e.action, f e.target, f e.result, f e.detail⟩

/-- `20 << 20`. -/
def auditRotateBytes : ℕ := 20971520

def auditRotateFiles : ℕ := 6

/-- Slot `0` is `audit.jsonl`, and slot `i` is `rotatedPath(i)`. -/
abbrev Files (Text : Type) := Slots (AuditEvent Text)

variable {Text : Type}

/-- The events of all files, the oldest file first. -/
def events (files : Files Text) : List (AuditEvent Text) := contents files (auditRotateFiles + 1)

/-- `width` gives the bytes of the line an event is encoded as. -/
def fileBytes (width : AuditEvent Text → ℕ) (file : List (AuditEvent Text)) : ℕ :=
  file.foldr (fun e n => width e + n) 0

/-- The current file has reached the size at which it is rotated. -/
def rotationDue (width : AuditEvent Text → ℕ) (files : Files Text) : Bool :=
  match files 0 with
  | none => false
  | some current => !decide (fileBytes width current < auditRotateBytes)

/-- The removal of the oldest file fails where `fails auditRotateFiles` says so, and its error is
ignored; the rename of the file in slot `i` fails where `fails i` says so. -/
def rotateIfNeeded (width : AuditEvent Text → ℕ) (fails : ℕ → Bool) (files : Files Text) : Files Text :=
  if rotationDue width files then
    let removed :=
      if fails auditRotateFiles then files else Function.update files auditRotateFiles none
    shift fails removed auditRotateFiles
  else files

/-- The file is opened with `O_CREATE|O_APPEND`, and the line is appended whole. -/
def appendLine (files : Files Text) (event : AuditEvent Text) : Files Text :=
  Function.update files 0 (some ((files 0).getD [] ++ [event]))

theorem events_appendLine (files : Files Text) (event : AuditEvent Text) :
    events (appendLine files event) = events files ++ [event] := by
  have hall : ∀ n, contents (appendLine files event) (n + 1) =
      contents files (n + 1) ++ [event] := by
    intro n
    induction n with
    | zero => simp [contents, appendLine]
    | succ n ih =>
      have hrest : appendLine files event (n + 1) = files (n + 1) :=
        Function.update_of_ne (Nat.succ_ne_zero n) ..
      rw [contents, ih, hrest, ← List.append_assoc]
      rfl
  exact hall _

/-- A rotation in which nothing fails loses what is in the oldest file, and nothing else. -/
theorem events_rotateIfNeeded {width : AuditEvent Text → ℕ} {fails : ℕ → Bool}
    (hfails : fails auditRotateFiles = false) {files : Files Text} :
    events (rotateIfNeeded width fails files) =
      if rotationDue width files then events (Function.update files auditRotateFiles none)
      else events files := by
  unfold rotateIfNeeded
  rw [hfails]
  split
  · have hfree : Function.update files auditRotateFiles none auditRotateFiles = none :=
      Function.update_self ..
    exact contents_shift fails hfree (Nat.le_refl _)
  · rfl

/-! ## Writes one after the other -/

/-- An event that is written, and what fails on the way: reading the size of the current file, each
removal and rename of a rotation, and opening the file. -/
structure Call (Text : Type) where
  event : AuditEvent Text
  stats : Bool
  fails : ℕ → Bool
  opens : Bool

/-- `AuditLog.Write` as far as the files go; the error of the rotation is ignored. -/
def write (width : AuditEvent Text → ℕ) (files : Files Text) (call : Call Text) : Files Text :=
  let rotated := if call.stats then rotateIfNeeded width call.fails files else files
  if call.opens then appendLine rotated call.event else rotated

def noFiles : Files Text := fun _ => none

/-- The events that were appended, in the order of the calls. -/
def written (calls : List (Call Text)) : List (AuditEvent Text) := (calls.filter (·.opens)).map (·.event)

theorem rotateIfNeeded_suffix (width : AuditEvent Text → ℕ) (fails : ℕ → Bool) (files : Files Text) :
    events (rotateIfNeeded width fails files) <:+ events files := by
  unfold rotateIfNeeded
  split
  · refine (contents_shift_suffix fails _ auditRotateFiles).trans ?_
    split
    · exact List.suffix_refl _
    · exact contents_remove_suffix files auditRotateFiles
  · exact List.suffix_refl _

theorem rotateIfNeeded_above (width : AuditEvent Text → ℕ) (fails : ℕ → Bool) (files : Files Text) {i : ℕ}
    (hi : auditRotateFiles < i) : rotateIfNeeded width fails files i = files i := by
  unfold rotateIfNeeded
  split
  · rw [shift_above fails hi]
    split
    · rfl
    · exact Function.update_of_ne (by omega) ..
  · rfl

/-- One write takes events from the start at most, and appends its own. -/
theorem write_step (width : AuditEvent Text → ℕ) (files : Files Text) (call : Call Text) :
    (∃ kept, kept <:+ events files ∧
      events (write width files call) = kept ++ written [call]) ∧
    ∀ i, auditRotateFiles < i → write width files call i = files i := by
  have hrotated : ∃ rotated, write width files call =
      (if call.opens then appendLine rotated call.event else rotated) ∧
        events rotated <:+ events files ∧ ∀ i, auditRotateFiles < i → rotated i = files i := by
    refine ⟨_, rfl, ?_, fun i hi => ?_⟩
    · split
      · exact rotateIfNeeded_suffix width call.fails files
      · exact List.suffix_refl _
    · split
      · exact rotateIfNeeded_above width call.fails files hi
      · rfl
  obtain ⟨rotated, hwrite, hkept, habove⟩ := hrotated
  rw [hwrite]
  cases hopens : call.opens with
  | true =>
    refine ⟨⟨events rotated, hkept, ?_⟩, fun i hi => ?_⟩
    · rw [if_pos rfl, events_appendLine]
      simp [written, hopens]
    · rw [if_pos rfl, ← habove i hi]
      exact Function.update_of_ne (by omega) ..
  | false =>
    refine ⟨⟨events rotated, hkept, ?_⟩, fun i hi => ?_⟩
    · simp [written, hopens]
    · exact habove i hi

/-- **The files hold the events that were written last, in order**, and there are no more files than
the current one and `auditRotateFiles`, after any writes, whichever rotations stop halfway. -/
theorem write_run (width : AuditEvent Text → ℕ) (calls : List (Call Text)) :
    events (calls.foldl (write width) noFiles) <:+ written calls ∧
      ∀ i, auditRotateFiles < i → calls.foldl (write width) noFiles i = none := by
  induction calls using List.reverseRecOn with
  | nil => exact ⟨List.suffix_refl _, fun _ _ => rfl⟩
  | append_singleton calls call ih =>
    obtain ⟨hsuffix, habove⟩ := ih
    rw [List.foldl_append, List.foldl_cons, List.foldl_nil]
    obtain ⟨⟨kept, hkept, hevents⟩, hsame⟩ := write_step width (calls.foldl (write width) noFiles) call
    have hwritten : written (calls ++ [call]) = written calls ++ written [call] := by
      rw [written, List.filter_append, List.map_append]
      rfl
    refine ⟨?_, fun i hi => (hsame i hi).trans (habove i hi)⟩
    obtain ⟨gone, hgone⟩ := hkept.trans hsuffix
    rw [hevents, hwritten]
    exact ⟨gone, by rw [← List.append_assoc, hgone]⟩

end LukePanel.Server.AuditLog
