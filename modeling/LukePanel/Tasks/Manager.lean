import LukePanel.Tasks.Units
import Mathlib.Logic.Function.Basic

/-! # Tasks on the host

`Create` and `Action` of `internal/tasks/manager.go` with `writeAtomic`, as far as the files of the
unit directory and the task directory and the enabled timers are concerned. What the calls on them
answer is given beforehand. -/
namespace LukePanel.Tasks.Manager
open LukePanel.Library.Attempt LukePanel.Tasks.Units

/-! ## The host -/

inductive Folder where
  | units
  | tasks
deriving DecidableEq

structure Place where
  folder : Folder
  name : String
deriving DecidableEq

structure Host where
  files : Place → Option String
  enabled : String → Bool

namespace Host

def put (s : Host) (p : Place) (content : String) : Host :=
  { s with files := Function.update s.files p (some content) }

def remove (s : Host) (p : Place) : Host := { s with files := Function.update s.files p none }

def switch (s : Host) (timer : String) (on : Bool) : Host :=
  { s with enabled := Function.update s.enabled timer on }

theorem ext_files {s t : Host} (hfiles : ∀ p, s.files p = t.files p) (henabled : s.enabled = t.enabled) :
    s = t := by
  have hfun : s.files = t.files := funext hfiles
  cases s
  cases t
  rw [Host.mk.injEq]
  exact ⟨hfun, henabled⟩

theorem files_put (s : Host) (p q : Place) (content : String) :
    (s.put p content).files q = if q = p then some content else s.files q :=
  Function.update_apply _ _ _ _

theorem files_remove (s : Host) (p q : Place) :
    (s.remove p).files q = if q = p then none else s.files q :=
  Function.update_apply _ _ _ _

theorem files_switch (s : Host) (timer : String) (on : Bool) : (s.switch timer on).files = s.files :=
  rfl

theorem enabled_switch (s : Host) (timer unit : String) (on : Bool) :
    (s.switch timer on).enabled unit = if unit = timer then on else s.enabled unit :=
  Function.update_apply _ _ _ _

theorem remove_put (s : Host) (p : Place) (content : String) :
    (s.put p content).remove p = s.remove p := by
  rw [remove, put, Function.update_idem, remove]

theorem remove_eq_self {s : Host} {p : Place} (h : s.files p = none) : s.remove p = s := by
  rw [remove, Function.update_eq_self_iff.mpr h.symm]

theorem remove_put_of_ne (s : Host) {p q : Place} (hpq : p ≠ q) (content : String) :
    (s.put p content).remove q = (s.remove q).put p content := by
  rw [remove, put, put, remove, Function.update_comm hpq]

end Host

abbrev Run := Prog Host String

/-! ## Files -/

structure WriteAnswers where
  mkdirAll : Option String
  /-- The number in the last name tried. -/
  random : ℕ
  createTemp : Option String
  chmod : Option String
  write : Option String
  sync : Option String
  close : Option String
  rename : Option String

def tempName (random : ℕ) : String := ".lukepanel-task-" ++ toString random ++ ".tmp"

/-- `os.CreateTemp` makes no file of a name that is taken; the temporary file is removed at the end,
which does nothing once it is renamed. -/
def writeAtomic (a : WriteAnswers) (path : Place) (data : String) : Run Unit := do
  let temp : Place := ⟨path.folder, tempName a.random⟩
  Prog.call a.mkdirAll
  Prog.call a.createTemp
  let s ← Prog.get
  Prog.check (s.files temp ≠ none) "file exists"
  Prog.modify (·.put temp "")
  Prog.deferring (Prog.modify (·.remove temp)) do
    Prog.call a.chmod
    Prog.call a.write
    Prog.modify (·.put temp data)
    Prog.call a.sync
    Prog.call a.close
    Prog.call a.rename
    Prog.modify fun s => (s.remove temp).put path data

/-! ## Creating -/

def servicePlace (id : String) : Place := ⟨.units, serviceUnit id⟩

def timerPlace (id : String) : Place := ⟨.units, timerUnit id⟩

def metadataPlace (id : String) : Place := ⟨.tasks, id ++ ".json"⟩

structure Answers where
  /-- What `exec.LookPath` finds in `validateRequest`, and then in `renderUnits`. -/
  docker : LookPath
  found : LookPath
  now : ℤ
  createdAt : String
  mkdirAll : Option String
  service : WriteAnswers
  timer : WriteAnswers
  metadata : WriteAnswers
  reload : Option String
  /-- The error, and whether the timer is enabled all the same. -/
  enable : Option (String × Bool)

def enableNow (answer : Option (String × Bool)) (timer : String) : Run Unit :=
  match answer with
  | none => Prog.modify (·.switch timer true)
  | some (err, left) => do
    Prog.modify fun s => if left then s.switch timer true else s
    Prog.fail err

/-- The calls of the cleanup succeed. -/
def cleanup (id : String) : Run Unit := do
  Prog.modify (·.switch (timerUnit id) false)
  Prog.modify (·.remove (servicePlace id))
  Prog.modify (·.remove (timerPlace id))
  Prog.modify (·.remove (metadataPlace id))

def fromExcept {α : Type} (x : Except String α) : Run α := Prog.read fun _ => x

def create (marshalIndent : Task → String) (a : Answers) (req : CreateRequest) : Run Task := do
  let req ← fromExcept (validateRequest a.docker req)
  let task := newTask a.now a.createdAt req
  let id := task.id
  let units ← fromExcept (renderUnits a.found task)
  Prog.call a.mkdirAll
  writeAtomic a.service (servicePlace id) units.1
  Prog.onFail (Prog.modify (·.remove (servicePlace id))) (writeAtomic a.timer (timerPlace id) units.2)
  Prog.onFail (Prog.modify fun s => (s.remove (servicePlace id)).remove (timerPlace id))
    (writeAtomic a.metadata (metadataPlace id) (marshalIndent task ++ "\n"))
  Prog.onFail (cleanup id) (Prog.call a.reload)
  Prog.onFail (cleanup id) (enableNow a.enable (timerUnit id))
  return task

/-! ## Actions -/

/-- `strconv.ParseUint` on 64 bits. -/
def parseUint (s : String) : Option ℕ :=
  let n := Nat.ofDigitChars 10 s.toList 0
  if s ≠ "" ∧ s.toList.all Char.isDigit = true ∧ n < 18446744073709551616 then some n else none

def validID (id : String) : Bool :=
  if id.utf8ByteSize < 4 ∨ 32 < id.utf8ByteSize then false else (parseUint id).isSome

structure ActionAnswers where
  /-- What the call of `systemctl` answers whose error is returned. -/
  systemctl : Option String
  enable : Option (String × Bool)
  removeTimer : Option String
  removeService : Option String
  removeMetadata : Option String

/-- A timer that could not be disabled is left out. -/
def action (a : ActionAnswers) (id action : String) : Run Unit := do
  Prog.check (validID id = false) "计划任务编号无效"
  if action = "run" then Prog.call a.systemctl
  else if action = "enable" then enableNow a.enable (timerUnit id)
  else if action = "disable" then do
    Prog.call a.systemctl
    Prog.modify (·.switch (timerUnit id) false)
  else if action = "delete" then do
    Prog.modify (·.switch (timerUnit id) false)
    Prog.call a.removeTimer
    Prog.modify (·.remove (timerPlace id))
    Prog.call a.removeService
    Prog.modify (·.remove (servicePlace id))
    Prog.modify fun s => if a.removeMetadata.isSome then s else s.remove (metadataPlace id)
    Prog.call a.systemctl
  else Prog.fail "不支持的计划任务操作"

end LukePanel.Tasks.Manager
