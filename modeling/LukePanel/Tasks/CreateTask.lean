import LukePanel.Tasks.Manager
import Mathlib.Algebra.Group.Nat.Defs

/-! # A task is created whole or not at all -/
namespace LukePanel.Tasks.CreateTask
open LukePanel.Library LukePanel.Library.Attempt LukePanel.Library.Attempt.Prog
open LukePanel.Tasks.Units LukePanel.Tasks.Manager

/-! ## Files -/

/-- No step of the write fails. -/
structure Passes (a : WriteAnswers) (before : Host) (folder : Folder) : Prop where
  mkdirAll : a.mkdirAll = none
  createTemp : a.createTemp = none
  free : before.files ⟨folder, tempName a.random⟩ = none
  chmod : a.chmod = none
  write : a.write = none
  sync : a.sync = none
  close : a.close = none
  rename : a.rename = none

/-- A write either puts the file there or leaves the host as it was. -/
theorem ends_writeAtomic {a : WriteAnswers} {path : Place} (hpath : path.name ≠ tempName a.random)
    (data : String) (s : Host) : Ends (writeAtomic a path data) s
      (fun _ s' => Passes a s path.folder ∧ s' = s.put path data)
      (fun _ s' => ¬ Passes a s path.folder ∧ s' = s) := by
  have htemp : path ≠ ⟨path.folder, tempName a.random⟩ := fun h => hpath (congrArg Place.name h)
  unfold writeAtomic
  dsimp only
  rw [ends_bind, ends_call]
  refine ⟨fun hmkdir => ?_, fun err herr => ⟨fun h => ?_, rfl⟩⟩
  swap
  · cases herr.symm.trans h.mkdirAll
  rw [ends_bind, ends_call]
  refine ⟨fun hcreate => ?_, fun err herr => ⟨fun h => ?_, rfl⟩⟩
  swap
  · cases herr.symm.trans h.createTemp
  rw [ends_bind, ends_get, ends_bind, ends_check]
  refine ⟨fun htaken => ⟨fun h => htaken h.free, rfl⟩, fun hfree => ?_⟩
  rw [not_not] at hfree
  -- What is left of the temporary file when a step fails is removed.
  have hremoved (content : String) :
      (s.put ⟨path.folder, tempName a.random⟩ content).remove ⟨path.folder, tempName a.random⟩ = s := by
    rw [Host.remove_put, Host.remove_eq_self hfree]
  rw [ends_bind, ends_modify, ends_deferring]
  simp only [ends_modify]
  rw [ends_bind, ends_call]
  refine ⟨fun hchmod => ?_, fun err herr => ⟨fun h => ?_, hremoved _⟩⟩
  swap
  · cases herr.symm.trans h.chmod
  rw [ends_bind, ends_call]
  refine ⟨fun hwrite => ?_, fun err herr => ⟨fun h => ?_, hremoved _⟩⟩
  swap
  · cases herr.symm.trans h.write
  have hput : (s.put ⟨path.folder, tempName a.random⟩ "").put ⟨path.folder, tempName a.random⟩ data =
      s.put ⟨path.folder, tempName a.random⟩ data := by
    rw [Host.put, Host.put, Function.update_idem, Host.put]
  rw [ends_bind, ends_modify, hput, ends_bind, ends_call]
  refine ⟨fun hsync => ?_, fun err herr => ⟨fun h => ?_, hremoved _⟩⟩
  swap
  · cases herr.symm.trans h.sync
  rw [ends_bind, ends_call]
  refine ⟨fun hclose => ?_, fun err herr => ⟨fun h => ?_, hremoved _⟩⟩
  swap
  · cases herr.symm.trans h.close
  rw [ends_bind, ends_call]
  refine ⟨fun hrename => ?_, fun err herr => ⟨fun h => ?_, hremoved _⟩⟩
  swap
  · cases herr.symm.trans h.rename
  rw [ends_modify, hremoved, Host.remove_put_of_ne s htemp, Host.remove_eq_self hfree]
  exact ⟨⟨hmkdir, hcreate, hfree, hchmod, hwrite, hsync, hclose, hrename⟩, rfl⟩

theorem passes_put {a : WriteAnswers} {s : Host} {p : Place} (hp : p.name ≠ tempName a.random)
    {content : String} {folder : Folder} : Passes a (s.put p content) folder ↔ Passes a s folder := by
  have hfiles : (s.put p content).files ⟨folder, tempName a.random⟩ =
      s.files ⟨folder, tempName a.random⟩ :=
    Function.update_of_ne (fun h => hp (congrArg Place.name h).symm) _ _
  exact ⟨fun h => { h with free := hfiles ▸ h.free }, fun h => { h with free := hfiles.trans h.free }⟩

/-- The last letters tell a temporary file from the files of a task. -/
theorem ne_tempName {start ending : String} {c : Char} (hending : ending.toList.getLast? = some c)
    (hc : c ≠ 'p') (random : ℕ) : start ++ ending ≠ tempName random := by
  intro h
  have hname : tempName random = ".lukepanel-task-" ++ toString random ++ ".tmp" := rfl
  have hlast := congrArg (fun s : String => s.toList.getLast?) h
  simp only [hname, String.toList_append, List.getLast?_append, hending, Option.some_or] at hlast
  exact hc (Option.some.inj hlast)

theorem servicePlace_ne (id : String) (random : ℕ) : (servicePlace id).name ≠ tempName random :=
  ne_tempName (by decide : ".service".toList.getLast? = some 'e') (by decide) random

theorem timerPlace_ne (id : String) (random : ℕ) : (timerPlace id).name ≠ tempName random :=
  ne_tempName (by decide : ".timer".toList.getLast? = some 'r') (by decide) random

theorem metadataPlace_ne (id : String) (random : ℕ) : (metadataPlace id).name ≠ tempName random :=
  ne_tempName (by decide : ".json".toList.getLast? = some 'n') (by decide) random

/-! ## How `Create` ends -/

/-- The request is accepted, its units are rendered and the task directory is there. -/
structure Begins (a : Answers) (req : CreateRequest) : Prop where
  rendered : ∃ accepted units, validateRequest a.docker req = .ok accepted ∧
    renderUnits a.found (newTask a.now a.createdAt accepted) = .ok units
  mkdirAll : a.mkdirAll = none

/-- Both calls of `systemctl` succeed. -/
structure Starts (a : Answers) : Prop where
  reload : a.reload = none
  enable : a.enable = none

section
variable (a : Answers) (req : CreateRequest) (before : Host)

/-- What is left when a call of `systemctl` failed. -/
def cleaned (id : String) : Host :=
  (((before.remove (servicePlace id)).remove (timerPlace id)).remove (metadataPlace id)).switch
    (timerUnit id) false

/-- The host with a task. -/
def withTask (id service timer metadata : String) : Host :=
  (((before.put (servicePlace id) service).put (timerPlace id) timer).put
    (metadataPlace id) metadata).switch (timerUnit id) true

inductive Outcome : Except String Task → Host → Prop where
  | refused (err : String) (hbegins : ¬ Begins a req) : Outcome (.error err) before
  | service (err : String) (hbegins : Begins a req) (hservice : ¬ Passes a.service before .units) :
    Outcome (.error err) before
  | timer (err : String) (hbegins : Begins a req) (hservice : Passes a.service before .units)
    (htimer : ¬ Passes a.timer before .units) :
    Outcome (.error err) (before.remove (servicePlace (taskID a.now)))
  | metadata (err : String) (hbegins : Begins a req) (hservice : Passes a.service before .units)
    (htimer : Passes a.timer before .units) (hmetadata : ¬ Passes a.metadata before .tasks) :
    Outcome (.error err)
      ((before.remove (servicePlace (taskID a.now))).remove (timerPlace (taskID a.now)))
  | systemctl (err : String) (hbegins : Begins a req) (hservice : Passes a.service before .units)
    (htimer : Passes a.timer before .units) (hmetadata : Passes a.metadata before .tasks)
    (hstarts : ¬ Starts a) : Outcome (.error err) (cleaned before (taskID a.now))
  | created (task : Task) (service timer metadata : String) (hid : task.id = taskID a.now)
    (hbegins : Begins a req) (hservice : Passes a.service before .units)
    (htimer : Passes a.timer before .units) (hmetadata : Passes a.metadata before .tasks)
    (hstarts : Starts a) :
    Outcome (.ok task) (withTask before (taskID a.now) service timer metadata)

variable {a req before}

theorem ends_fromExcept {α : Type} {x : Except String α} {s : Host} {Q : α → Host → Prop}
    {E : String → Host → Prop} : Ends (fromExcept x) s Q E ↔
      (∀ y, x = .ok y → Q y s) ∧ ∀ err, x = .error err → E err s := ends_read

theorem ends_cleanup {id : String} {s : Host} {Q : Unit → Host → Prop} {E : String → Host → Prop} :
    Ends (cleanup id) s Q E ↔ Q () (cleaned s id) := Iff.rfl

/-- Whatever was put at the places of a task is gone after the cleanup. -/
theorem cleaned_put (s : Host) (id service timer metadata : String) :
    cleaned (((s.put (servicePlace id) service).put (timerPlace id) timer).put
      (metadataPlace id) metadata) id = cleaned s id := by
  refine Host.ext_files (fun p => ?_) rfl
  simp only [cleaned, Host.files_switch, Host.files_remove, Host.files_put]
  split_ifs <;> rfl

theorem remove_put_pair (s : Host) (p q : Place) (c d : String) :
    (((s.put p c).put q d).remove p).remove q = (s.remove p).remove q := by
  refine Host.ext_files (fun r => ?_) rfl
  simp only [Host.files_remove, Host.files_put]
  split_ifs <;> rfl

theorem cleaned_switch (s : Host) (id : String) (on : Bool) :
    cleaned (s.switch (timerUnit id) on) id = cleaned s id := by
  refine Host.ext_files (fun p => rfl) ?_
  exact Function.update_idem _ _ _

theorem ends_create (marshalIndent : Task → String) :
    Ends (create marshalIndent a req) before (fun task after => Outcome a req before (.ok task) after)
      (fun err after => Outcome a req before (.error err) after) := by
  unfold create
  rw [ends_bind, ends_fromExcept]
  refine ⟨fun accepted haccepted => ?_, fun err herr => .refused err fun h => ?_⟩
  swap
  · obtain ⟨accepted, _, haccepted, -⟩ := h.rendered
    cases herr.symm.trans haccepted
  dsimp only
  rw [ends_bind, ends_fromExcept]
  refine ⟨fun units hunits => ?_, fun err herr => .refused err fun h => ?_⟩
  swap
  · obtain ⟨accepted', units, haccepted', hunits⟩ := h.rendered
    cases haccepted.symm.trans haccepted'
    cases herr.symm.trans hunits
  rw [ends_bind, ends_call]
  refine ⟨fun hmkdir => ?_, fun err herr => .refused err fun h => ?_⟩
  swap
  · cases herr.symm.trans h.mkdirAll
  have hbegins : Begins a req := ⟨⟨accepted, units, haccepted, hunits⟩, hmkdir⟩
  have hid : (newTask a.now a.createdAt accepted).id = taskID a.now := rfl
  rw [hid, ends_bind]
  refine (ends_writeAtomic (servicePlace_ne _ _) _ _).mono ?_ ?_
  swap
  · rintro err _ ⟨hservice, rfl⟩
    exact .service err hbegins hservice
  rintro _ _ ⟨hservice, rfl⟩
  rw [ends_bind, ends_onFail]
  refine (ends_writeAtomic (timerPlace_ne _ _) _ _).mono ?_ ?_
  swap
  · rintro err _ ⟨htimer, rfl⟩
    rw [passes_put (servicePlace_ne _ _)] at htimer
    rw [ends_modify, Host.remove_put]
    exact .timer err hbegins hservice htimer
  rintro _ _ ⟨htimer, rfl⟩
  rw [passes_put (servicePlace_ne _ _)] at htimer
  rw [ends_bind, ends_onFail]
  refine (ends_writeAtomic (metadataPlace_ne _ _) _ _).mono ?_ ?_
  swap
  · rintro err _ ⟨hmetadata, rfl⟩
    rw [passes_put (timerPlace_ne _ _), passes_put (servicePlace_ne _ _)] at hmetadata
    rw [ends_modify, remove_put_pair]
    exact .metadata err hbegins hservice htimer hmetadata
  rintro _ _ ⟨hmetadata, rfl⟩
  rw [passes_put (timerPlace_ne _ _), passes_put (servicePlace_ne _ _)] at hmetadata
  rw [ends_bind, ends_onFail, ends_call]
  refine ⟨fun hreload => ?_, fun err herr => ?_⟩
  swap
  · rw [ends_cleanup, cleaned_put]
    refine .systemctl err hbegins hservice htimer hmetadata fun h => ?_
    cases herr.symm.trans h.reload
  rw [ends_bind, ends_onFail]
  cases henable : a.enable with
  | none =>
    exact .created _ _ _ _ hid hbegins hservice htimer hmetadata ⟨hreload, henable⟩
  | some answer =>
    have hstarts : ¬ Starts a := fun h => by cases henable.symm.trans h.enable
    obtain ⟨err, left⟩ := answer
    have houtcome := Outcome.systemctl err hbegins hservice htimer hmetadata hstarts
    unfold enableNow
    dsimp only
    rw [ends_bind, ends_modify, ends_fail, ends_cleanup]
    split
    · rwa [cleaned_switch, cleaned_put]
    · rwa [cleaned_put]

end

/-! ## Identifiers -/

/-- The clock gives an identifier of four digits or more. -/
def Timely (now : ℤ) : Prop := 1000 ≤ now ∨ now ≤ -100000000000

theorem validID_iff {id : String} : validID id = true ↔
    4 ≤ id.utf8ByteSize ∧ id.utf8ByteSize ≤ 32 ∧ (parseUint id).isSome = true := by
  unfold validID
  split
  · rename_i h
    simp
    omega
  · rename_i h
    rw [not_or, Nat.not_lt, Nat.not_lt] at h
    simp [h.1, h.2]

theorem digit_value_lt {c : Char} (h : c.isDigit = true) : c.toNat - '0'.toNat < 10 := by
  simp only [Char.isDigit, Bool.and_eq_true, decide_eq_true_eq] at h
  have hle : c.toNat ≤ 57 := h.2
  have hzero : '0'.toNat = 48 := rfl
  omega

theorem ofDigitChars_lt {l : List Char} (h : ∀ c ∈ l, c.isDigit = true) :
    Nat.ofDigitChars 10 l 0 < 10 ^ l.length := by
  induction l with
  | nil => simp
  | cons c l ih =>
    rw [List.forall_mem_cons] at h
    rw [Nat.ofDigitChars_cons, Nat.ofDigitChars_eq_ofDigitChars_zero, List.length_cons, Nat.pow_succ]
    have hdigit := digit_value_lt h.1
    have hle : 10 ^ l.length * (10 * 0 + (c.toNat - '0'.toNat)) ≤ 10 ^ l.length * 9 :=
      Nat.mul_le_mul_left _ (by omega)
    have hrest := ih h.2
    omega

theorem validID_digits {l : List Char} (h : ∀ c ∈ l, c.isDigit = true) (hlong : l.length ≤ 12) :
    validID (String.ofList l) = true ↔ 4 ≤ l.length := by
  have hsize : (String.ofList l).utf8ByteSize = l.length :=
    GoStrings.utf8ByteSize_ofList fun c hc => GoStrings.utf8Size_of_isDigit (h c hc)
  rw [validID_iff, hsize]
  refine ⟨fun hvalid => hvalid.1, fun hshort => ⟨hshort, by omega, ?_⟩⟩
  have hne : String.ofList l ≠ "" := by
    intro hnil
    rw [hnil] at hsize
    have hzero : "".utf8ByteSize = 0 := rfl
    omega
  have hlt : Nat.ofDigitChars 10 l 0 < 18446744073709551616 :=
    calc Nat.ofDigitChars 10 l 0 < 10 ^ l.length := ofDigitChars_lt h
      _ ≤ 10 ^ 12 := Nat.pow_le_pow_right (by decide) hlong
      _ < 18446744073709551616 := by decide
  rw [parseUint]
  simp only [String.toList_ofList]
  rw [if_pos ⟨hne, List.all_eq_true.mpr h, hlt⟩]
  rfl

theorem validID_of_hyphen {id : String} (h : '-' ∈ id.toList) : validID id = false := by
  rw [← Bool.not_eq_true, validID_iff]
  rintro ⟨-, -, hparse⟩
  rw [parseUint] at hparse
  split at hparse
  · rename_i hdigits
    exact absurd (List.all_eq_true.mp hdigits.2.1 _ h) (by decide)
  · cases hparse

theorem isDigit_toDigits (n : ℕ) : ∀ c ∈ Nat.toDigits 10 n, c.isDigit = true := fun _ hc =>
  Nat.isDigit_of_mem_toDigits (by decide) (by decide) hc

/-- The last twelve digits of a number of more than twelve make an identifier. -/
theorem validID_drop {l : List Char} {count : ℕ} (hcount : l.length = count + 12)
    (h : ∀ c ∈ l.drop count, c.isDigit = true) : validID (String.ofList (l.drop count)) = true := by
  have hlength : (l.drop count).length = 12 := by
    rw [List.length_drop]
    omega
  exact (validID_digits h hlength.le).mpr (by omega)

theorem validID_taskID (now : ℤ) : validID (taskID now) = true ↔ Timely now := by
  have hlength : (toString now).length = (toString now).toList.length := String.length_toList.symm
  cases now with
  | ofNat n =>
    have hdigits := isDigit_toDigits n
    have hshort : (Nat.toDigits 10 n).length ≤ 3 ↔ n < 10 ^ 3 :=
      Nat.length_toDigits_le_iff (by decide) (by decide)
    have hlong : (Nat.toDigits 10 n).length ≤ 12 ↔ n < 10 ^ 12 :=
      Nat.length_toDigits_le_iff (by decide) (by decide)
    rw [toString_ofNat] at hlength
    have htimely : Timely (Int.ofNat n) ↔ 1000 ≤ n := by
      unfold Timely
      simp only [Int.ofNat_eq_natCast]
      omega
    rw [taskID, htimely]
    split
    · rename_i hlt
      rw [toString_ofNat]
      refine iff_of_true (validID_drop (by omega) fun c hc => ?_) (by omega)
      exact hdigits c (List.mem_of_mem_drop hc)
    · rename_i hle
      have heq : toString (Int.ofNat n) = String.ofList (Nat.toDigits 10 n) := by
        rw [← toString_ofNat, String.ofList_toList]
      rw [heq, validID_digits hdigits (by omega)]
      omega
  | negSucc n =>
    have hdigits := isDigit_toDigits (n + 1)
    have hlong : (Nat.toDigits 10 (n + 1)).length ≤ 11 ↔ n + 1 < 10 ^ 11 :=
      Nat.length_toDigits_le_iff (by decide) (by decide)
    rw [toString_negSucc, List.length_cons] at hlength
    have htimely : Timely (Int.negSucc n) ↔ 100000000000 ≤ n + 1 := by
      unfold Timely
      omega
    rw [taskID, htimely]
    split
    · rename_i hlt
      rw [toString_negSucc]
      refine iff_of_true (validID_drop (by rw [List.length_cons]; omega) fun c hc => ?_) (by omega)
      -- The sign is dropped.
      obtain ⟨count, hcount⟩ : ∃ count, (toString (Int.negSucc n)).length - 12 = count + 1 :=
        ⟨(toString (Int.negSucc n)).length - 13, by omega⟩
      rw [hcount, List.drop_succ_cons] at hc
      exact hdigits c (List.mem_of_mem_drop hc)
    · rename_i hle
      have hhyphen : '-' ∈ (toString (Int.negSucc n)).toList := by
        rw [toString_negSucc]
        exact List.mem_cons_self
      rw [validID_of_hyphen hhyphen]
      simp only [Bool.false_eq_true, false_iff, not_le]
      omega

/-! ## The transaction -/

/-- The task is there, and it can be deleted without a trace. -/
structure Created (id : String) (before after : Host) : Prop where
  fresh : ∀ p ∈ [servicePlace id, timerPlace id, metadataPlace id], before.files p = none
  there : ∀ p ∈ [servicePlace id, timerPlace id, metadataPlace id], after.files p ≠ none
  others : ∀ p ∉ [servicePlace id, timerPlace id, metadataPlace id], after.files p = before.files p
  valid : validID id = true
  deleted : Ends (action ⟨none, none, none, none, none⟩ id "delete") after
    (fun _ s => s.files = before.files) fun _ _ => False

structure Transaction (before : Host) (result : Except String Task) (after : Host) : Prop where
  failed : ∀ err, result = .error err → after.files = before.files ∧
    ∀ timer, after.enabled timer = true → before.enabled timer = true
  created : ∀ task, result = .ok task → Created task.id before after
  kept : ∀ p content, before.files p = some content → after.files p = some content

/-- No file that is written is there before, and the clock is not too near to its beginning for a
task that is created. -/
structure Unused (a : Answers) (req : CreateRequest) (before : Host) : Prop where
  service : Begins a req → Passes a.service before .units →
    before.files (servicePlace (taskID a.now)) = none
  timer : Begins a req → Passes a.service before .units → Passes a.timer before .units →
    before.files (timerPlace (taskID a.now)) = none
  metadata : Begins a req → Passes a.service before .units → Passes a.timer before .units →
    Passes a.metadata before .tasks → before.files (metadataPlace (taskID a.now)) = none
  timely : Begins a req → Passes a.service before .units → Passes a.timer before .units →
    Passes a.metadata before .tasks → Starts a → Timely a.now

theorem create_outcome (marshalIndent : Task → String) (a : Answers) (req : CreateRequest)
    (before : Host) : Outcome a req before (create marshalIndent a req before).1
      (create marshalIndent a req before).2 := by
  obtain ⟨hok, herror⟩ := ends_def.mp (@ends_create a req before marshalIndent)
  cases hresult : (create marshalIndent a req before).1 with
  | ok task => exact hok task hresult
  | error err => exact herror err hresult

section
variable {before : Host}

theorem transaction_unchanged (err : String) : Transaction before (.error err) before :=
  ⟨fun _ _ => ⟨rfl, fun _ h => h⟩, fun _ h => (by cases h), fun _ _ h => h⟩

/-- A transaction that failed leaves the place of a file that was removed as it was. -/
theorem Transaction.files_eq {err : String} {after : Host} (h : Transaction before (.error err) after)
    {p : Place} (hp : after.files p = none) : before.files p = none := by
  rw [← (h.failed err rfl).1, hp]

theorem files_cleaned (id : String) (p : Place) : (cleaned before id).files p =
    if p ∈ [servicePlace id, timerPlace id, metadataPlace id] then none else before.files p := by
  simp only [cleaned, Host.files_switch, Host.files_remove, List.mem_cons, List.not_mem_nil, or_false]
  split_ifs <;> simp_all

theorem files_withTask (id service timer metadata : String) (p : Place) :
    (withTask before id service timer metadata).files p ≠ none ∧
        p ∈ [servicePlace id, timerPlace id, metadataPlace id] ∨
      (withTask before id service timer metadata).files p = before.files p ∧
        p ∉ [servicePlace id, timerPlace id, metadataPlace id] := by
  simp only [withTask, Host.files_switch, Host.files_put, List.mem_cons, List.not_mem_nil, or_false]
  split_ifs <;> simp_all

theorem transaction_cleaned {id : String}
    (hfresh : ∀ p ∈ [servicePlace id, timerPlace id, metadataPlace id], before.files p = none)
    (err : String) : Transaction before (.error err) (cleaned before id) := by
  have hfiles : (cleaned before id).files = before.files := by
    refine funext fun p => ?_
    rw [files_cleaned]
    split
    · rename_i hp
      exact (hfresh p hp).symm
    · rfl
  refine ⟨fun _ _ => ⟨hfiles, fun timer h => ?_⟩, fun _ h => (by cases h), fun p content h => by rwa [hfiles]⟩
  rw [cleaned, Host.enabled_switch] at h
  split at h
  · cases h
  · exact h

theorem ends_delete {id : String} {s : Host} {Q : Unit → Host → Prop} {E : String → Host → Prop}
    (hid : validID id = true) :
    Ends (action ⟨none, none, none, none, none⟩ id "delete") s Q E ↔
      Q () ((((s.switch (timerUnit id) false).remove (timerPlace id)).remove (servicePlace id)).remove
        (metadataPlace id)) := by
  unfold action
  rw [ends_bind, ends_check, hid]
  simp only [Bool.true_eq_false, false_implies, true_and, not_false_eq_true, true_implies]
  exact Iff.rfl

theorem transaction_created {task : Task} {service timer metadata : String}
    (hfresh : ∀ p ∈ [servicePlace task.id, timerPlace task.id, metadataPlace task.id],
      before.files p = none) (hvalid : validID task.id = true) :
    Transaction before (.ok task) (withTask before task.id service timer metadata) := by
  have hfiles := @files_withTask before task.id service timer metadata
  refine ⟨fun _ h => (by cases h), fun t ht => ?_, fun p content h => ?_⟩
  · cases ht
    refine ⟨hfresh, fun p hp => ?_, fun p hp => ?_, hvalid, (ends_delete hvalid).mpr (funext fun p => ?_)⟩
    · exact ((hfiles p).resolve_right fun h => h.2 hp).1
    · exact ((hfiles p).resolve_left fun h => hp h.2).1
    · simp only [Host.files_remove, Host.files_switch]
      rcases hfiles p with ⟨-, hp⟩ | ⟨heq, hp⟩
      · rw [hfresh p hp]
        simp only [List.mem_cons, List.not_mem_nil, or_false] at hp
        rcases hp with rfl | rfl | rfl <;> simp
      · simp only [List.mem_cons, List.not_mem_nil, or_false, not_or] at hp
        rw [if_neg hp.2.2, if_neg hp.1, if_neg hp.2.1, heq]
  · rcases hfiles p with ⟨-, hp⟩ | ⟨heq, -⟩
    · cases (hfresh p hp).symm.trans h
    · rw [heq, h]

end

/-- `Create` is a transaction exactly when nothing that it writes is there before. -/
theorem create_iff (marshalIndent : Task → String) (a : Answers) (req : CreateRequest)
    (before : Host) :
    Transaction before (create marshalIndent a req before).1 (create marshalIndent a req before).2 ↔
      Unused a req before := by
  have houtcome := create_outcome marshalIndent a req before
  generalize (create marshalIndent a req before).1 = result at houtcome ⊢
  generalize (create marshalIndent a req before).2 = after at houtcome ⊢
  cases houtcome with
  | refused err hbegins =>
    exact iff_of_true (transaction_unchanged err) ⟨fun h => absurd h hbegins, fun h => absurd h hbegins,
      fun h => absurd h hbegins, fun h => absurd h hbegins⟩
  | service err hbegins hservice =>
    exact iff_of_true (transaction_unchanged err) ⟨fun _ h => absurd h hservice,
      fun _ h => absurd h hservice, fun _ h => absurd h hservice, fun _ h => absurd h hservice⟩
  | timer err hbegins hservice htimer =>
    constructor
    · intro h
      refine ⟨fun _ _ => h.files_eq ?_, fun _ _ h => absurd h htimer, fun _ _ h => absurd h htimer,
        fun _ _ h => absurd h htimer⟩
      rw [Host.files_remove, if_pos rfl]
    · intro h
      rw [Host.remove_eq_self (h.service hbegins hservice)]
      exact transaction_unchanged err
  | metadata err hbegins hservice htimer hmetadata =>
    constructor
    · intro h
      refine ⟨fun _ _ => h.files_eq ?_, fun _ _ _ => h.files_eq ?_, fun _ _ _ h => absurd h hmetadata,
        fun _ _ _ h => absurd h hmetadata⟩
      · rw [Host.files_remove, Host.files_remove, if_pos rfl, ite_self]
      · rw [Host.files_remove, if_pos rfl]
    · intro h
      rw [Host.remove_eq_self (h.service hbegins hservice),
        Host.remove_eq_self (h.timer hbegins hservice htimer)]
      exact transaction_unchanged err
  | systemctl err hbegins hservice htimer hmetadata hstarts =>
    constructor
    · intro h
      have hgone {p : Place} (hp : p ∈ [servicePlace (taskID a.now), timerPlace (taskID a.now),
          metadataPlace (taskID a.now)]) : before.files p = none :=
        h.files_eq (by rw [files_cleaned, if_pos hp])
      exact ⟨fun _ _ => hgone (by simp), fun _ _ _ => hgone (by simp), fun _ _ _ _ => hgone (by simp),
        fun _ _ _ _ h => absurd h hstarts⟩
    · intro h
      refine transaction_cleaned ?_ err
      simp only [List.forall_mem_cons, List.not_mem_nil, false_implies, implies_true, and_true]
      exact ⟨h.service hbegins hservice, h.timer hbegins hservice htimer,
        h.metadata hbegins hservice htimer hmetadata⟩
  | created task service timer metadata hid hbegins hservice htimer hmetadata hstarts =>
    rw [← hid]
    constructor
    · intro h
      have hcreated := h.created task rfl
      have hvalid := hcreated.valid
      rw [hid, validID_taskID] at hvalid
      rw [hid] at hcreated
      exact ⟨fun _ _ => hcreated.fresh _ (by simp), fun _ _ _ => hcreated.fresh _ (by simp),
        fun _ _ _ _ => hcreated.fresh _ (by simp), fun _ _ _ _ _ => hvalid⟩
    · intro h
      refine transaction_created ?_ ?_
      · simp only [List.forall_mem_cons, List.not_mem_nil, false_implies, implies_true, and_true]
        rw [hid]
        exact ⟨h.service hbegins hservice, h.timer hbegins hservice htimer,
          h.metadata hbegins hservice htimer hmetadata⟩
      · rw [hid, validID_taskID]
        exact h.timely hbegins hservice htimer hmetadata hstarts

/-- A host with one task, as it is created at the nanosecond 1700000123456789012. -/
def oneTask : Host where
  files p := if p ∈ [servicePlace "123456789012", timerPlace "123456789012",
    metadataPlace "123456789012"] then some "first" else none
  enabled timer := timer = timerUnit "123456789012"

def noFailure : WriteAnswers := ⟨none, 1, none, none, none, none, none, none⟩

/-- A thousand seconds later, when the timer cannot be enabled. -/
def notEnabled : Answers :=
  ⟨.error "", .error "", 1700001123456789012, "", none, noFailure, noFailure, noFailure, none,
    some ("failed", false)⟩

/-- The first task is removed. -/
theorem first_task_removed : ¬ Transaction oneTask
    (create (fun _ => "") notEnabled ⟨"backup", "panel-backup", "", "daily", 3, 0, 0⟩ oneTask).1
    (create (fun _ => "") notEnabled ⟨"backup", "panel-backup", "", "daily", 3, 0, 0⟩ oneTask).2 := by
  intro h
  have hkept := h.kept (servicePlace "123456789012") "first" (by decide)
  revert hkept
  decide +kernel

end LukePanel.Tasks.CreateTask
