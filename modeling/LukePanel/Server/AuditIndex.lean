import LukePanel.Library.Machine
import LukePanel.Library.Utf8
import LukePanel.Server.AuditLog
import Mathlib.Data.List.Infix
import Mathlib.Data.List.Perm.Basic

/-! # The audit index

The SQLite index over the audit files of `internal/server/audit.go`: `NewAuditLog`, `Write`,
`indexWorker`, `ResetIndex` and `Query` as steps of one machine. A call of `Write` is two steps,
the locked append to the file and what it does for the index, with other steps in between. The
inserts into the index may fail, each as a whole; nothing else fails. The texts of an event are the bytes
that the handlers pass; its line is JSON, and so is read back as characters. -/
namespace LukePanel.Server.AuditIndex
open LukePanel.Library.Machine LukePanel.Library.Rotation LukePanel.Library.Utf8
open LukePanel.Server.AuditLog

/-! ## Rows of the index -/

/-- What the line reader of the `sqlite3` command leaves of its input. -/
def withoutReturns : Bytes → Bytes
  | 13 :: 10 :: rest => 10 :: withoutReturns rest
  | b :: rest => b :: withoutReturns rest
  | [] => []

/-- What arrives of a value: `sqlQuote` takes out every NUL. -/
def quoted (value : Bytes) : Bytes := withoutReturns (value.filter (· ≠ 0))

/-- The row an event is inserted as. -/
def row (e : AuditEvent Bytes) : AuditEvent Bytes := e.map quoted

/-- The event that is read back from its line. -/
def logged (e : AuditEvent Bytes) : AuditEvent String := e.map decode

/-- The bytes of its texts. -/
def stored (e : AuditEvent Bytes) : AuditEvent Bytes := (logged e).map encode

/-- A value that is the same in the files and in the index. -/
structure Plain (value : Bytes) : Prop where
  valid : Valid value
  nul : 0 ∉ value
  returns : ¬ [13, 10] <:+: value

instance (value : Bytes) : Decidable (Plain value) :=
  decidable_of_iff (Valid value ∧ 0 ∉ value ∧ ¬ [13, 10] <:+: value)
    ⟨fun h => ⟨h.1, h.2.1, h.2.2⟩, fun h => ⟨h.valid, h.nul, h.returns⟩⟩

def texts {Text : Type} (e : AuditEvent Text) : List Text :=
  [e.time, e.ip, e.user, e.action, e.target, e.result, e.detail]

theorem map_eq_self {Text : Type} {f : Text → Text} {e : AuditEvent Text} (h : ∀ text ∈ texts e, f text = text) :
    e.map f = e := by
  simp only [texts, List.forall_mem_cons] at h
  obtain ⟨htime, hip, huser, haction, htarget, hresult, hdetail, -⟩ := h
  rw [AuditEvent.map, htime, hip, huser, haction, htarget, hresult, hdetail]

theorem withoutReturns_eq_self {value : Bytes} (h : ¬ [13, 10] <:+: value) : withoutReturns value = value := by
  induction value using withoutReturns.induct with
  | case1 rest => exact absurd (List.prefix_append [13, 10] rest).isInfix h
  | case2 b rest hnot ih =>
    rw [withoutReturns, ih fun hrest => h (hrest.trans (List.suffix_cons b rest).isInfix)]
    exact hnot
  | case3 => rfl

theorem Plain.quoted {value : Bytes} (h : Plain value) : quoted value = value := by
  have hfilter : value.filter (· ≠ 0) = value := List.filter_eq_self.mpr fun b hb =>
    decide_eq_true (ne_of_mem_of_not_mem hb h.nul)
  rw [AuditIndex.quoted, hfilter, withoutReturns_eq_self h.returns]

theorem row_eq_self {e : AuditEvent Bytes} (h : ∀ text ∈ texts e, Plain text) : row e = e :=
  map_eq_self fun text htext => (h text htext).quoted

theorem stored_eq_self {e : AuditEvent Bytes} (h : ∀ text ∈ texts e, Plain text) : stored e = e :=
  map_eq_self fun text htext => (h text htext).valid

/-! ## The store -/

/-- `sqlite` tells whether a start found the index usable; only then are there a queue and a
worker. `writing` holds the events that a call of `Write` has appended and not yet handed on.
`batch` is the local variable of the worker. -/
structure Store where
  files : Files Bytes
  rows : List (AuditEvent Bytes)
  sqlite : Bool
  indexCh : List (AuditEvent Bytes)
  batch : List (AuditEvent Bytes)
  indexPending : Int
  indexReady : Bool
  writing : List (AuditEvent Bytes)

/-- Before the first start. -/
def start : Store := ⟨fun _ => none, [], false, [], [], 0, false, []⟩

/-- `make(chan AuditEvent, 512)`. -/
def indexChCap : ℕ := 512

/-- `insertBatch`; it ends in an error where `ok` is false. -/
def insertBatch (s : Store) (batch : List (AuditEvent Bytes)) (ok : Bool) : Store :=
  if ok then { s with rows := s.rows ++ batch.map row } else { s with indexReady := false }

/-- The locked part of `Write`. -/
def append (width : AuditEvent Bytes → ℕ) (s : Store) (event : AuditEvent Bytes) (now : String) : Store :=
  let event := { event with time := encode now }
  { s with
    files := appendLine (rotateIfNeeded width (fun _ => false) s.files) event
    writing := s.writing ++ [event] }

/-- The rest of `Write`: the event is queued, or inserted at once if the queue is full. -/
def index (s : Store) (event : AuditEvent Bytes) (ok : Bool) : Store :=
  if !s.sqlite then s
  else if s.indexCh.length < indexChCap then
    { s with indexPending := s.indexPending + 1, indexCh := s.indexCh ++ [event] }
  else insertBatch s [event] ok

/-- `flush` of the worker. -/
def flush (s : Store) (ok : Bool) : Store :=
  if s.batch.isEmpty then s
  else
    let s' := insertBatch s s.batch ok
    { s' with indexPending := s.indexPending - s.batch.length, batch := [] }

/-- The worker receives an event; a batch of 64 is flushed. -/
def receive (s : Store) (event : AuditEvent Bytes) (rest : List (AuditEvent Bytes)) (ok : Bool) : Store :=
  let s := { s with indexCh := rest, batch := s.batch ++ [event] }
  if 64 ≤ s.batch.length then flush s ok else s

/-! ## The rebuild -/

/-- The batches the loop of `rebuildFromFilesLocked` inserts; `batch` is what it has collected
of the next one. -/
def batches (batch : List (AuditEvent Bytes)) : List (AuditEvent Bytes) → List (List (AuditEvent Bytes))
  | [] => if batch.isEmpty then [] else [batch]
  | e :: rest =>
    let batch := batch ++ [e]
    if 500 ≤ batch.length then batch :: batches [] rest else batches batch rest

/-- `rebuildFromFilesLocked` on an empty index: the rows it leaves of the events that it reads back, and
whether it ends without an error. `failed` numbers the batch whose insert fails, if one does. -/
def rebuildFromFiles (files : Files Bytes) (failed : Option ℕ) : Option (List (AuditEvent Bytes) × Bool) :=
  let all := batches [] ((events files).map stored)
  match failed with
  | none => some (all.flatten.map row, true)
  | some n => if n < all.length then some ((all.take n).flatten.map row, false) else none

/-- `ResetIndex`; the index is removed and built anew. -/
def resetIndex (s : Store) (failed : Option ℕ) : Option Store :=
  if !s.sqlite then some s
  else (rebuildFromFiles s.files failed).map fun r => { s with rows := r.1, indexReady := r.2 }

/-- The process ends, and `NewAuditLog` starts a new one; `found` is false where there is no
`sqlite3` or the index cannot be opened. -/
def restart (s : Store) (found : Bool) (failed : Option ℕ) : Option Store :=
  let s := { s with
    sqlite := false, indexCh := [], batch := [], indexPending := 0, indexReady := false
    writing := [] }
  if !found then some s
  else if !s.rows.isEmpty then some { s with sqlite := true, indexReady := true }
  else (rebuildFromFiles s.files failed).map fun r =>
    { s with rows := r.1, sqlite := r.2, indexReady := r.2 }

/-! ## The machine -/

inductive Action where
  | append (event : AuditEvent Bytes) (now : String)
  /-- The call at this place of `writing` goes on. -/
  | index (place : ℕ) (ok : Bool)
  | receive (ok : Bool)
  | tick (ok : Bool)
  /-- A query; it gives up the index where `ok` is false. -/
  | query (ok : Bool)
  | resetIndex (failed : Option ℕ)
  | restart (found : Bool) (failed : Option ℕ)

variable (width : AuditEvent Bytes → ℕ)

def step (s : Store) (a : Action) : Option Store :=
  match a with
  | .append event now => some (append width s event now)
  | .index place ok =>
    match s.writing[place]? with
    | none => none
    | some event => some (index { s with writing := s.writing.eraseIdx place } event ok)
  | .receive ok =>
    match s.indexCh with
    | [] => none
    | event :: rest => some (receive s event rest ok)
  | .tick ok => some (flush s ok)
  | .query ok =>
    if s.sqlite && s.indexReady && s.indexPending == 0 && !ok then
      some { s with indexReady := false }
    else some s
  | .resetIndex failed => resetIndex s failed
  | .restart found failed => restart s found failed

/-! ## When the index is in step with the files -/

/-- Whenever queries use the index, its rows are the events that are read from the files. -/
def InStep (s : Store) : Prop :=
  s.indexReady = true → s.indexPending = 0 → s.rows.Perm ((events s.files).map stored)

/-- A rotation takes no event from under a usable index, the texts of every event are plain, the index is
built anew only while no event is on its way to it, and a process starts with an index that is empty or in
step. -/
def Meets (s : Store) : Action → Prop
  | .append event now =>
    (rotationDue width s.files = true → s.indexReady = true →
      (s.files auditRotateFiles).getD [] = []) ∧
    ∀ text ∈ texts { event with time := encode now }, Plain text
  | .resetIndex none => s.sqlite = true → s.indexCh = [] ∧ s.batch = [] ∧ s.writing = []
  | .restart true _ => s.rows = [] ∨ s.rows.Perm ((events s.files).map stored)
  | _ => True

instance (s : Store) : (a : Action) → Decidable (Meets width s a)
  | .append .. => inferInstanceAs (Decidable (_ ∧ _))
  | .resetIndex none => inferInstanceAs (Decidable (_ → _))
  | .restart true _ => inferInstanceAs (Decidable (_ ∨ _))
  | .index .. | .receive _ | .tick _ | .query _ | .resetIndex (some _) | .restart false _ =>
    inferInstanceAs (Decidable True)

/-! ## What the steps keep -/

variable {width} {s s' : Store} {a : Action}

/-- The events that are in the files and not yet in the index. -/
def Store.onTheWay (s : Store) : List (AuditEvent Bytes) := s.batch ++ s.indexCh ++ s.writing

/-- While the index is usable, its rows and the events on their way to it are the events of the
files. -/
structure Inv (s : Store) : Prop where
  plain : ∀ e ∈ events s.files, ∀ text ∈ texts e, Plain text
  pending : s.indexPending = s.batch.length + s.indexCh.length
  off : s.sqlite = false → s.indexReady = false ∧ s.batch = [] ∧ s.indexCh = []
  inStep : s.indexReady = true → (s.rows ++ s.onTheWay).Perm (events s.files)

theorem inv_start : Inv start := by
  refine ⟨fun e he => ?_, rfl, fun _ => ⟨rfl, rfl, rfl⟩, fun hready => ?_⟩
  · exact absurd he List.not_mem_nil
  · cases hready

/-- Plain events are read back as they were written. -/
theorem Inv.map_stored (h : Inv s) : (events s.files).map stored = events s.files :=
  (List.map_congr_left fun e he => stored_eq_self (h.plain e he)).trans (List.map_id _)

/-- What is on its way to a usable index is inserted as it is. -/
theorem Inv.row_onTheWay (h : Inv s) (hready : s.indexReady = true) {e : AuditEvent Bytes}
    (he : e ∈ s.onTheWay) : row e = e :=
  row_eq_self (h.plain e ((h.inStep hready).subset (List.mem_append_right _ he)))

theorem Inv.append {event : AuditEvent Bytes} {now : String} (h : Inv s)
    (hmeets : Meets width s (.append event now)) : Inv (append width s event now) := by
  obtain ⟨hrotation, hrow⟩ := hmeets
  have hevents : events (rotateIfNeeded width (fun _ => false) s.files) =
      if rotationDue width s.files then events (Function.update s.files auditRotateFiles none)
      else events s.files := events_rotateIfNeeded rfl
  have hsubset : ∀ e ∈ events (rotateIfNeeded width (fun _ => false) s.files),
      e ∈ events s.files := by
    intro e he
    rw [hevents] at he
    split at he
    · exact mem_contents_update he
    · exact he
  refine ⟨fun e he => ?_, h.pending, h.off, fun hready => ?_⟩
  · simp only [AuditIndex.append] at he
    rw [events_appendLine, List.mem_append, List.mem_singleton] at he
    rcases he with he | rfl
    · exact h.plain e (hsubset e he)
    · exact hrow
  · have hkept : events (rotateIfNeeded width (fun _ => false) s.files) = events s.files := by
      rw [hevents]
      split
      · rename_i hdue
        exact contents_update_empty (hrotation hdue hready)
      · rfl
    have hlist : ∀ e : AuditEvent Bytes, s.rows ++ (s.batch ++ s.indexCh ++ (s.writing ++ [e])) =
        s.rows ++ s.onTheWay ++ [e] := by
      intro e
      simp only [Store.onTheWay, List.append_assoc]
    simp only [AuditIndex.append, Store.onTheWay]
    rw [events_appendLine, hkept, hlist]
    exact (h.inStep hready).append_right _

/-- An insert of events that are on their way. -/
theorem map_row_eq (h : Inv s) (hready : s.indexReady = true) {batch : List (AuditEvent Bytes)}
    (hbatch : ∀ e ∈ batch, e ∈ s.onTheWay) : batch.map row = batch := by
  conv => rhs; rw [← List.map_id batch]
  exact List.map_congr_left fun e he => h.row_onTheWay hready (hbatch e he)

theorem Inv.flush (h : Inv s) (ok : Bool) : Inv (flush s ok) := by
  unfold AuditIndex.flush
  split
  · exact h
  · have hpending := h.pending
    cases ok with
    | false =>
      refine ⟨h.plain, ?_, fun hoff => ⟨rfl, rfl, (h.off hoff).2.2⟩, fun hready => ?_⟩
      · simp only [insertBatch, Bool.false_eq_true, if_false, List.length_nil]
        omega
      · cases hready
    | true =>
      refine ⟨h.plain, ?_, fun hoff => ⟨(h.off hoff).1, rfl, (h.off hoff).2.2⟩, fun hready => ?_⟩
      · simp only [insertBatch, if_true, List.length_nil]
        omega
      · have hmap : s.batch.map row = s.batch := map_row_eq h hready fun e he =>
          List.mem_append_left _ (List.mem_append_left _ he)
        have hlist : s.rows ++ s.batch ++ ([] ++ s.indexCh ++ s.writing) =
            s.rows ++ s.onTheWay := by
          simp only [Store.onTheWay, List.append_assoc, List.nil_append]
        simp only [insertBatch, if_true, Store.onTheWay, hmap]
        rw [hlist]
        exact h.inStep hready

theorem Inv.receive {event : AuditEvent Bytes} {rest : List (AuditEvent Bytes)} (h : Inv s)
    (hqueue : s.indexCh = event :: rest) (ok : Bool) : Inv (receive s event rest ok) := by
  have hreceived : Inv { s with indexCh := rest, batch := s.batch ++ [event] } := by
    have hpending := h.pending
    rw [hqueue] at hpending
    refine ⟨h.plain, ?_, fun hoff => ?_, fun hready => ?_⟩
    · simp only [List.length_append, List.length_cons, List.length_nil] at hpending ⊢
      omega
    · have := (h.off hoff).2.2
      rw [hqueue] at this
      cases this
    · have hlist : s.batch ++ [event] ++ rest ++ s.writing = s.onTheWay := by
        simp only [Store.onTheWay, hqueue, List.append_assoc, List.singleton_append]
      simp only [Store.onTheWay]
      rw [hlist]
      exact h.inStep hready
  unfold AuditIndex.receive
  dsimp only
  split
  · exact hreceived.flush ok
  · exact hreceived

theorem Inv.index {place : ℕ} {event : AuditEvent Bytes} (h : Inv s)
    (hplace : s.writing[place]? = some event) (ok : Bool) :
    Inv (index { s with writing := s.writing.eraseIdx place } event ok) := by
  have hpending := h.pending
  obtain ⟨hlt, hget⟩ := List.getElem?_eq_some_iff.mp hplace
  have hperm : (event :: s.writing.eraseIdx place).Perm s.writing :=
    hget ▸ List.getElem_cons_eraseIdx_perm hlt
  unfold AuditIndex.index
  dsimp only
  split
  · rename_i hoff
    rw [Bool.not_eq_true'] at hoff
    refine ⟨h.plain, hpending, h.off, fun hready => ?_⟩
    rw [(h.off hoff).1] at hready
    cases hready
  · rename_i hon
    have hsqlite : s.sqlite = true := by simpa using hon
    split
    · -- the event is queued
      refine ⟨h.plain, ?_, fun hoff => ?_, fun hready => ?_⟩
      · simp only [List.length_append, List.length_cons, List.length_nil]
        omega
      · rw [hsqlite] at hoff
        cases hoff
      · refine List.Perm.trans ?_ (h.inStep hready)
        simp only [Store.onTheWay, List.append_assoc, List.singleton_append]
        exact ((hperm.append_left _).append_left _).append_left _
    · -- the queue is full
      cases ok with
      | false =>
        refine ⟨h.plain, hpending, fun hoff => ?_, fun hready => ?_⟩
        · rw [hsqlite] at hoff
          cases hoff
        · cases hready
      | true =>
        refine ⟨h.plain, hpending, h.off, fun hready => ?_⟩
        have hmem : event ∈ s.onTheWay :=
          List.mem_append_right _ (hperm.subset List.mem_cons_self)
        have hrow : row event = event := h.row_onTheWay hready hmem
        refine List.Perm.trans ?_ (h.inStep hready)
        simp only [insertBatch, if_true, Store.onTheWay, List.map_cons, List.map_nil, hrow,
          List.append_assoc, List.singleton_append]
        refine List.Perm.append_left _ ?_
        rw [← List.append_assoc, ← List.append_assoc]
        exact List.perm_middle.symm.trans (hperm.append_left _)

theorem flatten_batches (batch all : List (AuditEvent Bytes)) :
    (batches batch all).flatten = batch ++ all := by
  induction all generalizing batch with
  | nil =>
    rw [batches]
    cases batch with
    | nil => rfl
    | cons e rest => simp
  | cons e rest ih =>
    rw [batches]
    split
    · rw [List.flatten_cons, ih, List.nil_append, List.append_assoc, List.singleton_append]
    · rw [ih, List.append_assoc, List.singleton_append]

/-- A rebuild in which no insert fails puts every event into the index; another one ends in an
error. -/
theorem rebuildFromFiles_cases (h : Inv s) {failed : Option ℕ}
    {r : List (AuditEvent Bytes) × Bool} (hr : rebuildFromFiles s.files failed = some r) :
    failed = none ∧ r = (events s.files, true) ∨ failed ≠ none ∧ r.2 = false := by
  cases failed with
  | none =>
    left
    refine ⟨rfl, ?_⟩
    obtain rfl := Option.some.inj hr
    have hmap : (events s.files).map row = events s.files := by
      conv => rhs; rw [← List.map_id (events s.files)]
      exact List.map_congr_left fun e he => row_eq_self (h.plain e he)
    rw [h.map_stored, flatten_batches, List.nil_append, hmap]
  | some n =>
    right
    refine ⟨Option.some_ne_none n, ?_⟩
    simp only [rebuildFromFiles] at hr
    split at hr
    · obtain rfl := Option.some.inj hr
      rfl
    · cases hr

theorem Inv.resetIndex {failed : Option ℕ} (h : Inv s)
    (hmeets : Meets width s (.resetIndex failed)) (hs : resetIndex s failed = some s') :
    Inv s' := by
  unfold AuditIndex.resetIndex at hs
  split at hs
  · obtain rfl := Option.some.inj hs
    exact h
  · rename_i hon
    have hsqlite : s.sqlite = true := by simpa using hon
    obtain ⟨r, hr, rfl⟩ := Option.map_eq_some_iff.mp hs
    refine ⟨h.plain, h.pending, fun hoff => ?_, fun hready => ?_⟩
    · rw [hsqlite] at hoff
      cases hoff
    · rcases rebuildFromFiles_cases h hr with ⟨rfl, rfl⟩ | ⟨_, hfailed⟩
      · obtain ⟨hqueue, hbatch, hwriting⟩ := hmeets hsqlite
        simp only [Store.onTheWay, hqueue, hbatch, hwriting, List.append_nil]
        exact List.Perm.refl _
      · rw [hfailed] at hready
        cases hready

theorem Inv.restart {found : Bool} {failed : Option ℕ} (h : Inv s)
    (hmeets : Meets width s (.restart found failed)) (hs : restart s found failed = some s') :
    Inv s' := by
  unfold AuditIndex.restart at hs
  dsimp only at hs
  split at hs
  · obtain rfl := Option.some.inj hs
    refine ⟨h.plain, rfl, fun _ => ⟨rfl, rfl, rfl⟩, fun hready => ?_⟩
    cases hready
  · rename_i hfound
    obtain rfl : found = true := by simpa using hfound
    split at hs
    · -- the rows that are there are taken for the index
      rename_i hrows
      obtain rfl := Option.some.inj hs
      refine ⟨h.plain, rfl, fun hoff => (by cases hoff), fun _ => ?_⟩
      have hne : s.rows ≠ [] := by
        intro hnil
        rw [hnil] at hrows
        cases hrows
      simp only [Store.onTheWay, List.append_nil]
      have hrows := hmeets.resolve_left hne
      rwa [h.map_stored] at hrows
    · obtain ⟨r, hr, rfl⟩ := Option.map_eq_some_iff.mp hs
      rcases rebuildFromFiles_cases h hr with ⟨rfl, rfl⟩ | ⟨_, hfailed⟩
      · refine ⟨h.plain, rfl, fun hoff => (by cases hoff), fun _ => ?_⟩
        simp only [Store.onTheWay, List.append_nil]
        exact List.Perm.refl _
      · refine ⟨h.plain, rfl, fun _ => ⟨hfailed, rfl, rfl⟩, fun hready => ?_⟩
        rw [hfailed] at hready
        cases hready

theorem inv_step (h : Inv s) (hmeets : Meets width s a) (hs : step width s a = some s') :
    Inv s' := by
  cases a with
  | append event now =>
    obtain rfl := Option.some.inj hs
    exact h.append hmeets
  | index place ok =>
    rw [step] at hs
    cases hplace : s.writing[place]? with
    | none =>
      rw [hplace] at hs
      cases hs
    | some event =>
      rw [hplace] at hs
      obtain rfl := Option.some.inj hs
      exact h.index hplace ok
  | receive ok =>
    rw [step] at hs
    cases hqueue : s.indexCh with
    | nil =>
      rw [hqueue] at hs
      cases hs
    | cons event rest =>
      rw [hqueue] at hs
      obtain rfl := Option.some.inj hs
      exact h.receive hqueue ok
  | tick ok =>
    obtain rfl := Option.some.inj hs
    exact h.flush ok
  | query ok =>
    rw [step] at hs
    split at hs
    · obtain rfl := Option.some.inj hs
      exact ⟨h.plain, h.pending, fun hoff => ⟨rfl, (h.off hoff).2⟩, fun hready => by cases hready⟩
    · obtain rfl := Option.some.inj hs
      exact h
  | resetIndex failed => exact h.resetIndex hmeets hs
  | restart found failed => exact h.restart hmeets hs

/-- An index with nothing on its way to it is in step. -/
theorem Inv.settled (h : Inv s) (hwriting : s.writing = []) : InStep s := by
  intro hready hpending
  have hlength := h.pending
  have hbatch : s.batch = [] := List.length_eq_zero_iff.mp (by omega)
  have hqueue : s.indexCh = [] := List.length_eq_zero_iff.mp (by omega)
  have hperm := h.inStep hready
  simp only [Store.onTheWay, hbatch, hqueue, hwriting, List.append_nil] at hperm
  rw [h.map_stored]
  exact hperm

/-- **The index is in step with the files.** In every run whose steps meet the conditions,
whenever no call of `Write` is under way, a usable index with nothing pending has a row for each
event of the files and no others. -/
theorem index_in_step {t : Store} (h : Reaches (step width) (Meets width) start t)
    (hidle : t.writing = []) : InStep t :=
  (h.invariant inv_start fun _ _ _ hinv hmeets hs => inv_step hinv hmeets hs).settled hidle

/-! ## Runs -/

def login : AuditEvent Bytes :=
  (⟨"", "192.0.2.7", "admin", "login", "", "success", ""⟩ : AuditEvent String).map encode

def settings : AuditEvent Bytes :=
  (⟨"", "192.0.2.7", "admin", "settings.save", "panel", "success", ""⟩ : AuditEvent String).map encode

/-- A call of `Write` whose event reaches the index by a tick, where `ok` lets it. -/
def written (event : AuditEvent Bytes) (now : String) (ok : Bool) : List Action :=
  [.append event now, .index 0 true, .receive true, .tick ok]

/-- What queries and the files show of a store. -/
structure Shown where
  indexReady : Bool
  indexPending : Int
  rows : List (AuditEvent Bytes)
  events : List (AuditEvent Bytes)
  writing : List (AuditEvent Bytes)
  deriving DecidableEq

def Store.shown (s : Store) : Shown := ⟨s.indexReady, s.indexPending, s.rows, events s.files, s.writing⟩

/-- A run with a restart and a rebuild keeps the index in step. -/
theorem index_in_step_run : ∃ t, Reaches (step fun _ => 120) (Meets fun _ => 120) start t ∧
    t.indexReady = true ∧ InStep t := by
  have hrun : (runIf (step fun _ => 120) (fun s a => decide (Meets (fun _ => 120) s a)) start
      (.restart true none :: written login "2026-03-01T10:00:00Z" true ++
        [.restart true none] ++ written settings "2026-03-01T10:05:00Z" true ++
        [.resetIndex none])).map Store.shown =
      some ⟨true, 0, [{ login with time := encode "2026-03-01T10:00:00Z" },
          { settings with time := encode "2026-03-01T10:05:00Z" }],
        [{ login with time := encode "2026-03-01T10:00:00Z" },
          { settings with time := encode "2026-03-01T10:05:00Z" }], []⟩ := by decide +kernel
  obtain ⟨t, ht, hshown⟩ := Option.map_eq_some_iff.mp hrun
  have hreach := reaches_of_runIf (fun _ _ h => of_decide_eq_true h) ht
  simp only [Store.shown, Shown.mk.injEq] at hshown
  exact ⟨t, hreach, hshown.1, index_in_step hreach hshown.2.2.2.2⟩

/-- A run that shows a usable index with more or fewer rows than there are events. -/
theorem out_of_step_of_shown {acts : List Action} {rows all : List (AuditEvent Bytes)}
    (hrun : (run (step fun _ => 120) start acts).map Store.shown = some ⟨true, 0, rows, all, []⟩)
    (hlength : rows.length ≠ all.length) :
    ∃ t, Reaches (step fun _ => 120) Free start t ∧ t.writing = [] ∧ ¬ InStep t ∧
      t.rows.length = rows.length ∧ (events t.files).length = all.length := by
  obtain ⟨t, ht, hshown⟩ := Option.map_eq_some_iff.mp hrun
  simp only [Store.shown, Shown.mk.injEq] at hshown
  obtain ⟨hready, hpending, hrows, hevents, hwriting⟩ := hshown
  refine ⟨t, reaches_of_run ht, hwriting, fun hstep => hlength ?_, by rw [hrows], by rw [hevents]⟩
  have hstored : ((events t.files).map stored).length = (events t.files).length := List.length_map _
  rw [← hrows, ← hevents, ← hstored]
  exact (hstep hready hpending).length_eq

/-- After an insert that failed, the next process takes the index for complete; and an event that
is queued while the index is built anew is inserted a second time. -/
theorem index_out_of_step :
    (∃ t, Reaches (step fun _ => 120) Free start t ∧ t.writing = [] ∧ ¬ InStep t ∧
      t.rows.length < (events t.files).length) ∧
    (∃ t, Reaches (step fun _ => 120) Free start t ∧ t.writing = [] ∧ ¬ InStep t ∧
      (events t.files).length < t.rows.length) := by
  constructor
  · have hrun : (run (step fun _ => 120) start
        (.restart true none :: written login "2026-03-01T10:00:00Z" true ++
          written settings "2026-03-01T10:05:00Z" false ++ [.restart true none])).map Store.shown =
        some ⟨true, 0, [{ login with time := encode "2026-03-01T10:00:00Z" }],
          [{ login with time := encode "2026-03-01T10:00:00Z" },
            { settings with time := encode "2026-03-01T10:05:00Z" }], []⟩ := by decide +kernel
    obtain ⟨t, hreach, hwriting, hout, hrows, hevents⟩ := out_of_step_of_shown hrun (by decide)
    refine ⟨t, hreach, hwriting, hout, ?_⟩
    rw [hrows, hevents]
    decide
  · have hrun : (run (step fun _ => 120) start
        [.restart true none, .append login "2026-03-01T10:00:00Z", .index 0 true,
          .resetIndex none, .receive true, .tick true]).map Store.shown =
        some ⟨true, 0, [{ login with time := encode "2026-03-01T10:00:00Z" },
            { login with time := encode "2026-03-01T10:00:00Z" }],
          [{ login with time := encode "2026-03-01T10:00:00Z" }], []⟩ := by decide +kernel
    obtain ⟨t, hreach, hwriting, hout, hrows, hevents⟩ := out_of_step_of_shown hrun (by decide)
    refine ⟨t, hreach, hwriting, hout, ?_⟩
    rw [hrows, hevents]
    decide

end LukePanel.Server.AuditIndex
