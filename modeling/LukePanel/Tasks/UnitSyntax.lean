import LukePanel.Library.UnitFile
import LukePanel.Tasks.Units
import Mathlib.Tactic.IntervalCases

/-! # The units as systemd reads them -/
namespace LukePanel.Tasks.UnitSyntax
open LukePanel.Library LukePanel.Library.UnitFile LukePanel.Tasks.Units

/-! ## Reading -/

/-- What specifiers stand for. -/
structure Specifiers where
  resolve : Char → Option Text
  no_null : ∀ c value, resolve c = some value → '\x00' ∉ value

inductive Directive where
  | header (name : Text)
  | setting (key value : Text)
  | command (key : Text) (argv : Option (List Text))
  | invalid (line : Text)
deriving DecidableEq

def directive (spec : Specifiers) : Item → Directive
  | .header name => .header name
  | .assignment key value =>
    if key = "ExecStart".toList then .command key (argv spec.resolve value)
    else .setting key (expand spec.resolve value)
  | .invalid line => .invalid line

def directives (spec : Specifiers) (text : String) : List Directive :=
  (items text.toList).map (directive spec)

def intendedService (task : Task) (executable : String) (args : List String) : List Directive :=
  [.header "Unit".toList,
    .setting "Description".toList ("LukePanel task: ".toList ++ task.name.toList),
    .setting "After".toList "network-online.target".toList,
    .header "Service".toList,
    .setting "Type".toList "oneshot".toList,
    .command "ExecStart".toList (some ((executable :: args).map String.toList)),
    .setting "NoNewPrivileges".toList "true".toList]

def intendedTimer (task : Task) : List Directive :=
  [.header "Unit".toList,
    .setting "Description".toList ("LukePanel schedule: ".toList ++ task.name.toList),
    .header "Timer".toList,
    .setting "OnCalendar".toList (onCalendar task).toList,
    .setting "Persistent".toList "true".toList,
    .setting "AccuracySec".toList "1min".toList,
    .setting "RandomizedDelaySec".toList "15s".toList,
    .setting "Unit".toList (serviceUnit task.id).toList,
    .header "Install".toList,
    .setting "WantedBy".toList "timers.target".toList]

/-- The units have the settings that are meant. -/
structure Meant (spec : Specifiers) (task : Task) (executable : String) (args : List String)
    (service timer : String) : Prop where
  service : directives spec service = intendedService task executable args
  timer : directives spec timer = intendedTimer task

/-- A name that means itself in a unit. -/
def Neutral (name : String) : Prop :=
  ('\x00' ∉ name.toList ∧ name.toList.any isNonchar = false) ∧
    (name.toList.rtakeWhile (· = '\\')).length % 2 = 0

/-! ## Lines without a specifier or an end -/

/-- No character of it has a meaning of its own. -/
def Ordinary (s : String) : Prop := ∀ c ∈ s.toList, isKept c = true ∧ c ≠ '%'

instance (s : String) : Decidable (Ordinary s) :=
  decidable_of_iff ((s.toList.all fun c => isKept c && c != '%') = true) (by simp [Ordinary])

instance (name : String) : Decidable (Neutral name) :=
  inferInstanceAs (Decidable (_ ∧ _))

theorem ordinary_append {a b : String} : Ordinary (a ++ b) ↔ Ordinary a ∧ Ordinary b := by
  rw [Ordinary, String.toList_append]
  exact List.forall_mem_append

theorem ordinary_of_isAlphanum {c : Char} (h : c.isAlphanum = true ∨ c ∈ ['_', '.', '@', '-']) :
    isKept c = true ∧ c ≠ '%' := by
  have hlt : c.toNat < 128 := by
    rcases h with h | h
    · delta Char.isAlphanum Char.isAlpha Char.isUpper Char.isLower Char.isDigit at h
      simp only [Bool.or_eq_true, Bool.and_eq_true, decide_eq_true_eq] at h
      have hle : c.val.toNat ≤ 122 := by
        rcases h with (⟨-, h⟩ | ⟨-, h⟩) | ⟨-, h⟩
        · exact (UInt32.le_iff_toNat_le.mp h).trans (by decide)
        · exact UInt32.le_iff_toNat_le.mp h
        · exact (UInt32.le_iff_toNat_le.mp h).trans (by decide)
      exact Nat.lt_of_le_of_lt hle (by decide)
    · simp only [List.mem_cons, List.not_mem_nil, or_false] at h
      rcases h with rfl | rfl | rfl | rfl <;> decide
  have hall : ∀ n < 128, (Char.ofNat n).isAlphanum = true ∨ Char.ofNat n ∈ ['_', '.', '@', '-'] →
      isKept (Char.ofNat n) = true ∧ Char.ofNat n ≠ '%' := by decide +kernel
  have hc := hall c.toNat hlt
  rw [Char.ofNat_toNat] at hc
  exact hc h

theorem ordinary_of_safeName {s : String} (h : safeName s = true) : Ordinary s := by
  unfold safeName at h
  split at h
  · cases h
  · rename_i c rest hs
    simp only [Bool.and_eq_true, List.all_eq_true, Bool.or_eq_true, decide_eq_true_eq] at h
    intro d hd
    rw [hs] at hd
    rcases List.mem_cons.mp hd with rfl | hd
    · exact ordinary_of_isAlphanum (.inl h.1.1)
    · exact ordinary_of_isAlphanum (h.2 d hd)

theorem ordinary_toString (n : ℤ) : Ordinary (toString n) := by
  intro c hc
  rcases isDigit_of_mem_toString hc with hdigit | rfl
  · exact ordinary_of_isAlphanum (.inl (by simp [Char.isAlphanum, hdigit]))
  · exact ordinary_of_isAlphanum (.inr (by decide))

theorem ordinary_twoDigits (n : ℤ) : Ordinary (twoDigits n) := by
  unfold twoDigits
  split
  · exact ordinary_append.mpr ⟨by decide, ordinary_toString n⟩
  · exact ordinary_toString n

theorem ordinary_onCalendar {task : Task} (hweekday : 0 ≤ task.weekday ∧ task.weekday ≤ 6) :
    Ordinary (onCalendar task) := by
  unfold onCalendar
  have hdays : Ordinary (days.getD task.weekday.toNat "") := by
    have hall : ∀ n < 7, Ordinary (days.getD n "") := by decide
    exact hall _ (by omega)
  have htimes (n : ℤ) := ordinary_twoDigits n
  split
  · simp only [ordinary_append, htimes, and_true]
    decide
  · split
    · simp only [ordinary_append, htimes, hdays, and_true, true_and]
      decide
    · simp only [ordinary_append, htimes, and_true]
      decide

theorem ordinary_serviceUnit_taskID (now : ℤ) : Ordinary (serviceUnit (taskID now)) := by
  have hid : Ordinary (taskID now) := fun c hc =>
    ordinary_toString now c (mem_toString_of_mem_taskID hc)
  change Ordinary ("lukepanel-task-" ++ taskID now ++ ".service")
  simp only [ordinary_append, hid, and_true]
  decide

/-- Nothing in the command of a task has a meaning of its own. -/
theorem ordinary_command {docker : LookPath} (hdocker : ∀ path, docker = .ok path → Ordinary path)
    {task : Task} (htarget : task.type = "service-restart" ∨ task.type = "docker-restart" →
      safeName task.target = true) {executable : String} {args : List String}
    (h : command docker task = .ok (executable, args)) : ∀ w ∈ executable :: args, Ordinary w := by
  unfold command at h
  split at h
  · rename_i htype
    cases h
    have hord := ordinary_of_safeName (htarget (.inl htype))
    simp only [List.forall_mem_cons, hord, List.not_mem_nil, false_implies, implies_true, and_true]
    decide
  split at h
  · rename_i htype
    have hord := ordinary_of_safeName (htarget (.inr htype))
    cases hd : docker with
    | error err => rw [hd] at h; cases h
    | ok path =>
      rw [hd] at h
      cases h
      simp only [List.forall_mem_cons, hord, hdocker _ hd, List.not_mem_nil, false_implies,
        implies_true, and_true, true_and]
      decide
  split at h
  · cases hd : docker with
    | error err => rw [hd] at h; cases h
    | ok path =>
      rw [hd] at h
      cases h
      simp only [List.forall_mem_cons, hdocker _ hd, List.not_mem_nil, false_implies,
        implies_true, and_true, true_and]
      decide
  split at h
  · cases h
    decide
  · cases h

/-! ## The command line -/

theorem toList_systemdEscapeArg (value : String) :
    (systemdEscapeArg value).toList = quoted value.toList := by
  rw [systemdEscapeArg, String.toList_ofList, quoted, List.cons_append]
  congr 2
  rw [replaceAll, replaceAll, List.flatMap_assoc, escapeQuoted]
  refine List.flatMap_congr fun c _ => ?_
  by_cases hslash : c = '\\'
  · simp [hslash]
  · by_cases hquote : c = '"' <;> simp [hslash, hquote]

theorem toList_execLine (executable : String) (args : List String) :
    (execLine executable args).toList = commandLine ((executable :: args).map String.toList) := by
  have hfold : ∀ (args : List String) (line : String),
      (args.foldl (fun line arg => line ++ " " ++ systemdEscapeArg arg) line).toList =
        line.toList ++ args.flatMap fun arg => ' ' :: quoted arg.toList := by
    intro args
    induction args with
    | nil => simp
    | cons arg args ih =>
      intro line
      rw [List.foldl_cons, ih, List.flatMap_cons, String.toList_append, String.toList_append,
        toList_systemdEscapeArg, List.append_assoc, List.append_assoc]
      rfl
  have hline : ∀ (args : List String) (w : Text), commandLine (w :: args.map String.toList) =
      quoted w ++ args.flatMap fun arg => ' ' :: quoted arg.toList := by
    intro args
    induction args with
    | nil => simp [commandLine]
    | cons arg args ih =>
      intro w
      rw [List.map_cons, commandLine_cons, ih, List.flatMap_cons, List.cons_append]
  rw [execLine, hfold, toList_systemdEscapeArg, List.map_cons, hline]

/-! ## Lines of the units -/

theorem toList_unlines (lines : List String) :
    (Units.unlines lines).toList = UnitFile.unlines (lines.map String.toList) := by
  rw [Units.unlines, String.toList_ofList, UnitFile.unlines, List.flatMap_map]

theorem directives_unlines (spec : Specifiers) {lines : List String} {is : List (Option Item)}
    (h : List.Forall₂ Reads (lines.map String.toList) is) :
    directives spec (Units.unlines lines) = (is.filterMap id).map (directive spec) := by
  rw [directives, toList_unlines, items_of_reads h]

theorem toList_setting (key value : String) :
    (setting key value).toList = key.toList ++ '=' :: value.toList := by
  simp [setting]

/-- A line whose value has no special characters, nor a space or a backslash at its ends. -/
theorem reads_setting {key value : String} (hkey : key.toList ≠ [])
    (hletters : key.toList.all Char.isAlpha = true) (hvalue : ∀ c ∈ value.toList, isKept c = true)
    {first last : Char} (hfirst : value.toList.head? = some first)
    (hlast : value.toList.getLast? = some last)
    (hplain : isWhitespace first = false ∧ isWhitespace last = false ∧ last ≠ '\\') :
    Reads (setting key value).toList (some (.assignment key.toList value.toList)) := by
  obtain ⟨before, hbefore⟩ := List.getLast?_eq_some_iff.mp hlast
  rw [toList_setting]
  refine reads_assignment hkey hletters hvalue (fun c hc => ?_) (fun c hc => ?_) ?_
  · rw [hfirst] at hc
    exact Option.some.inj hc ▸ hplain.1
  · rw [hlast] at hc
    exact Option.some.inj hc ▸ hplain.2.1
  · rw [hbefore, ← List.cons_append, ← List.append_assoc]
    exact isEscaped_append hplain.2.2

theorem toList_escapeDescription {name : String}
    (hline : ∀ c ∈ name.toList, c ≠ '\r' ∧ c ≠ '\n') :
    (escapeDescription name).toList = escapeSpecifiers name.toList := by
  rw [escapeDescription, String.toList_ofList, escapeSpecifiers]
  refine List.flatMap_congr fun c hc => ?_
  rw [if_neg (not_or.mpr ⟨(hline c hc).2, (hline c hc).1⟩)]

theorem isSpace_of_isWhitespace {c : Char} (h : GoStrings.isSpace c = false) : isWhitespace c = false := by
  refine decide_eq_false fun hmem => ?_
  simp only [List.mem_cons, List.not_mem_nil, or_false] at hmem
  rcases hmem with rfl | rfl | rfl | rfl <;> revert h <;> decide

theorem forall_escapeSpecifiers {P : Char → Prop} (hpercent : P '%') {value : Text}
    (h : ∀ c ∈ value, P c) : ∀ c ∈ escapeSpecifiers value, P c := by
  intro c hc
  obtain ⟨d, hd, hmem⟩ := List.mem_flatMap.mp hc
  split at hmem
  · simp only [List.mem_cons, List.not_mem_nil, or_false, or_self] at hmem
    rw [hmem]
    exact hpercent
  · rw [List.mem_singleton.mp hmem]
    exact h d hd

theorem mem_escapeSpecifiers {c : Char} {value : Text} (h : c ∈ value) : c ∈ escapeSpecifiers value := by
  refine List.mem_flatMap.mpr ⟨c, h, ?_⟩
  split
  · rename_i hc
    exact hc ▸ List.mem_cons_self
  · exact List.mem_singleton_self c

/-- The description, after the words that begin it. -/
def described (start : String) (name : String) : Text := start.toList ++ escapeSpecifiers name.toList

/-- Words before a name: they end in a space. -/
structure Opening (start : String) : Prop where
  first : (start.toList.head?.any fun c => !isWhitespace c) = true
  last : start.toList.getLast? = some ' '
  ordinary : Ordinary start

theorem opening_service : Opening "LukePanel task: " := ⟨by decide, by decide, by decide⟩

theorem opening_timer : Opening "LukePanel schedule: " := ⟨by decide, by decide, by decide⟩

section
variable {req : CreateRequest} (hreq : Accepted req) {start : String} (hstart : Opening start)
include hreq hstart

omit hstart in
theorem toList_description (start : String) :
    (setting "Description" (start ++ escapeDescription req.name)).toList =
      "Description".toList ++ '=' :: described start req.name := by
  rw [toList_setting, String.toList_append, toList_escapeDescription hreq.name_line, described]

theorem isSpace_described :
    (∀ c, (described start req.name).head? = some c → isWhitespace c = false) ∧
      ∀ c, (described start req.name).getLast? = some c → isWhitespace c = false := by
  constructor
  · intro c hc
    have hfirst := hstart.first
    cases hhead : start.toList.head? with
    | none =>
      rw [hhead] at hfirst
      cases hfirst
    | some d =>
      rw [described, List.head?_append, hhead, Option.some_or, Option.some.injEq] at hc
      rw [hhead] at hfirst
      simpa [hc] using hfirst
  · intro c hc
    have hne : req.name.toList ≠ [] := fun h => hreq.name_ne (String.toList_eq_nil_iff.mp h)
    have hlast := List.getLast?_eq_some_getLast hne
    rw [described, List.getLast?_append, getLast?_escapeSpecifiers, hlast, Option.some_or,
      Option.some.injEq] at hc
    refine isSpace_of_isWhitespace (@GoStrings.isSpace_of_getLast?_trimSpace req.name c ?_)
    rw [hreq.name_trimmed, hlast, hc]

theorem isEol_described (hnull : '\x00' ∉ req.name.toList) :
    ∀ c ∈ described start req.name, isEol c = false := by
  have hname : ∀ c ∈ req.name.toList, isEol c = false := fun c hc => decide_eq_false fun hmem => by
    simp only [List.mem_cons, List.not_mem_nil, or_false] at hmem
    rcases hmem with rfl | rfl | rfl
    · exact (hreq.name_line _ hc).2 rfl
    · exact (hreq.name_line _ hc).1 rfl
    · exact hnull hc
  rw [described, List.forall_mem_append]
  exact ⟨isEol_of_isKept fun c hc => (hstart.ordinary c hc).1,
    forall_escapeSpecifiers (P := fun c => isEol c = false) rfl hname⟩

theorem isKept_described (hnull : '\x00' ∉ req.name.toList)
    (hnonchar : req.name.toList.any isNonchar = false) :
    ∀ c ∈ described start req.name, isKept c = true := by
  refine fun c hc => isKept_iff.mpr ⟨isEol_described hreq hstart hnull c hc, ?_⟩
  rcases List.mem_append.mp hc with hc | hc
  · exact (isKept_iff.mp (hstart.ordinary c hc).1).2
  · exact forall_escapeSpecifiers (P := fun c => isNonchar c = false) rfl
      (fun d hd => Bool.not_eq_true _ |>.mp (List.any_eq_false.mp hnonchar d hd)) c hc

omit hreq hstart in
theorem any_isNonchar_described (h : req.name.toList.any isNonchar = true) :
    (described start req.name).any isNonchar = true := by
  obtain ⟨c, hc, hnonchar⟩ := List.any_eq_true.mp h
  exact List.any_eq_true.mpr ⟨c, List.mem_append_right _ (mem_escapeSpecifiers hc), hnonchar⟩

omit hreq in
theorem isEscaped_described (name : String) :
    isEscaped ("Description".toList ++ '=' :: described start name) = isEscaped name.toList := by
  have hlast : ("Description".toList ++ '=' :: start.toList).getLast? = some ' ' := by
    rw [List.getLast?_append, List.getLast?_cons, hstart.last]
    rfl
  rw [described, ← List.cons_append, ← List.append_assoc]
  exact isEscaped_escapeSpecifiers hlast (by decide) name.toList

/-- The line of a description that does not go on. -/
theorem reads_description (hneutral : Neutral req.name) :
    Reads (setting "Description" (start ++ escapeDescription req.name)).toList
      (some (.assignment "Description".toList (described start req.name))) := by
  obtain ⟨hfirst, hlast⟩ := isSpace_described hreq hstart
  rw [toList_description hreq start]
  refine reads_assignment (by decide) (by decide)
    (isKept_described hreq hstart hneutral.1.1 hneutral.1.2) hfirst hlast ?_
  rw [isEscaped_described hstart, isEscaped, hneutral.2]
  rfl

/-- The line of a description with a noncharacter that does not go on. -/
theorem reads_description_dropped (hnull : '\x00' ∉ req.name.toList)
    (hnonchar : req.name.toList.any isNonchar = true) (heven : isEscaped req.name.toList = false) :
    Reads (setting "Description" (start ++ escapeDescription req.name)).toList none := by
  rw [toList_description hreq start]
  exact reads_dropped (by decide) (by decide) (isEol_described hreq hstart hnull)
    (isSpace_described hreq hstart).2 ((isEscaped_described hstart req.name).trans heven)
    (any_isNonchar_described hnonchar)

omit hreq in
theorem directive_described (spec : Specifiers) (name : String) :
    directive spec (.assignment "Description".toList (described start name)) =
      .setting "Description".toList (start.toList ++ name.toList) := by
  rw [directive, if_neg (by decide), described,
    expand_append spec.resolve fun hmem => (hstart.ordinary _ hmem).2 rfl, expand_escapeSpecifiers]

end

theorem directive_setting (spec : Specifiers) {key value : String} (hkey : key ≠ "ExecStart")
    (hvalue : Ordinary value) :
    directive spec (.assignment key.toList value.toList) = .setting key.toList value.toList := by
  rw [directive, if_neg fun h => hkey (String.toList_injective h),
    expand_eq_self spec.resolve fun hmem => (hvalue _ hmem).2 rfl]

/-! ## Names that are neutral -/

theorem reads_exec {word : String} {rest : List String} (hwords : ∀ w ∈ word :: rest, Ordinary w) :
    Reads (setting "ExecStart" (execLine word rest)).toList
      (some (.assignment "ExecStart".toList (execLine word rest).toList)) := by
  refine reads_setting (by decide) (by decide) ?_ ?_ ?_ (by decide : isWhitespace '"' = false ∧
    isWhitespace '"' = false ∧ '"' ≠ '\\')
  · rw [toList_execLine]
    refine isKept_commandLine fun w hw c hc => ?_
    obtain ⟨v, hv, rfl⟩ := List.mem_map.mp hw
    exact (hwords v hv c hc).1
  · rw [toList_execLine]
    exact head?_commandLine _ _
  · rw [toList_execLine]
    exact getLast?_commandLine _ _

theorem directive_exec (spec : Specifiers) {word : String} {rest : List String}
    (hwords : ∀ w ∈ word :: rest, Ordinary w) :
    directive spec (.assignment "ExecStart".toList (execLine word rest).toList) =
      .command "ExecStart".toList (some ((word :: rest).map String.toList)) := by
  rw [directive, if_pos rfl, toList_execLine, List.map_cons]
  refine congrArg _ (argv_commandLine spec.resolve fun w hw hmem => ?_)
  rw [← List.map_cons] at hw
  obtain ⟨v, hv, rfl⟩ := List.mem_map.mp hw
  exact (hwords v hv _ hmem).2 rfl

/-- The service of a neutral name. -/
theorem directives_service (spec : Specifiers) {req : CreateRequest} (hreq : Accepted req)
    (hneutral : Neutral req.name) (now : ℤ) (createdAt : String) {executable : String}
    {args : List String} (hwords : ∀ w ∈ executable :: args, Ordinary w) :
    directives spec (Units.unlines (serviceLines (newTask now createdAt req) executable args)) =
      intendedService (newTask now createdAt req) executable args := by
  have hreads : List.Forall₂ Reads
      ((serviceLines (newTask now createdAt req) executable args).map String.toList)
      [some (.header "Unit".toList),
        some (.assignment "Description".toList (described "LukePanel task: " req.name)),
        some (.assignment "After".toList "network-online.target".toList),
        none,
        some (.header "Service".toList),
        some (.assignment "Type".toList "oneshot".toList),
        some (.assignment "ExecStart".toList (execLine executable args).toList),
        some (.assignment "NoNewPrivileges".toList "true".toList)] := by
    simp only [serviceLines, newTask, List.map_cons, List.map_nil, List.forall₂_cons]
    exact ⟨by decide, reads_description hreq opening_service hneutral, by decide, by decide, by decide,
      by decide, reads_exec hwords, by decide, .nil⟩
  rw [directives_unlines spec hreads, List.filterMap_cons, List.filterMap_cons]
  simp only [List.filterMap_cons, List.filterMap_nil, id_eq, List.map_cons, List.map_nil,
    directive_described opening_service, directive_exec spec hwords]
  rw [intendedService, directive_setting spec (by decide) (by decide),
    directive_setting spec (by decide) (by decide), directive_setting spec (by decide) (by decide)]
  rfl

theorem head?_onCalendar {task : Task} (hweekday : 0 ≤ task.weekday ∧ task.weekday ≤ 6) :
    ∃ c, (onCalendar task).toList.head? = some c ∧ isWhitespace c = false := by
  unfold onCalendar
  split
  · exact ⟨'*', by simp, rfl⟩
  split
  · have hall : ∀ n < 7, ((days.getD n "").toList.head?.any (!isWhitespace ·)) = true := by decide
    have hday := hall task.weekday.toNat (by omega)
    cases hc : (days.getD task.weekday.toNat "").toList.head? with
    | none =>
      rw [hc] at hday
      cases hday
    | some c =>
      rw [hc] at hday
      refine ⟨c, ?_, by simpa using hday⟩
      simp only [String.toList_append, List.append_assoc]
      rw [List.head?_append, hc, Option.some_or]
  · exact ⟨'*', by simp, rfl⟩

theorem getLast?_onCalendar (task : Task) : (onCalendar task).toList.getLast? = some '0' := by
  unfold onCalendar
  split
  · rw [String.toList_append, List.getLast?_append]
    rfl
  split <;>
  · rw [String.toList_append, List.getLast?_append]
    rfl

theorem reads_calendar {task : Task} (hweekday : 0 ≤ task.weekday ∧ task.weekday ≤ 6) :
    Reads (setting "OnCalendar" (onCalendar task)).toList
      (some (.assignment "OnCalendar".toList (onCalendar task).toList)) := by
  obtain ⟨first, hfirst, hspace⟩ := head?_onCalendar hweekday
  exact reads_setting (by decide) (by decide) (fun c hc => (ordinary_onCalendar hweekday c hc).1)
    hfirst (getLast?_onCalendar task) ⟨hspace, by decide⟩

theorem reads_unit (now : ℤ) :
    Reads (setting "Unit" (serviceUnit (taskID now))).toList
      (some (.assignment "Unit".toList (serviceUnit (taskID now)).toList)) := by
  refine @reads_setting "Unit" _ (by decide) (by decide)
    (fun c hc => (ordinary_serviceUnit_taskID now c hc).1) 'l' 'e' ?_ ?_ (by decide)
  · change ("lukepanel-task-" ++ taskID now ++ ".service").toList.head? = some 'l'
    simp
  · change ("lukepanel-task-" ++ taskID now ++ ".service").toList.getLast? = some 'e'
    rw [String.toList_append, List.getLast?_append]
    rfl

/-- The timer of a neutral name. -/
theorem directives_timer (spec : Specifiers) {req : CreateRequest} (hreq : Accepted req)
    (hneutral : Neutral req.name) (now : ℤ) (createdAt : String) :
    directives spec (Units.unlines (timerLines (newTask now createdAt req))) =
      intendedTimer (newTask now createdAt req) := by
  have hcalendar := @ordinary_onCalendar (newTask now createdAt req) hreq.weekday
  have hreads : List.Forall₂ Reads ((timerLines (newTask now createdAt req)).map String.toList)
      [some (.header "Unit".toList),
        some (.assignment "Description".toList (described "LukePanel schedule: " req.name)),
        none,
        some (.header "Timer".toList),
        some (.assignment "OnCalendar".toList (onCalendar (newTask now createdAt req)).toList),
        some (.assignment "Persistent".toList "true".toList),
        some (.assignment "AccuracySec".toList "1min".toList),
        some (.assignment "RandomizedDelaySec".toList "15s".toList),
        some (.assignment "Unit".toList (serviceUnit (taskID now)).toList),
        none,
        some (.header "Install".toList),
        some (.assignment "WantedBy".toList "timers.target".toList)] := by
    simp only [timerLines, List.map_cons, List.map_nil, List.forall₂_cons]
    exact ⟨by decide, reads_description hreq opening_timer hneutral, by decide, by decide,
      reads_calendar hreq.weekday, by decide, by decide, by decide, reads_unit now, by decide,
      by decide, by decide, .nil⟩
  rw [directives_unlines spec hreads]
  simp only [List.filterMap_cons, List.filterMap_nil, id_eq, List.map_cons, List.map_nil,
    directive_described opening_timer]
  rw [intendedTimer, directive_setting spec (by decide) hcalendar,
    directive_setting spec (by decide) (by decide), directive_setting spec (by decide) (by decide),
    directive_setting spec (by decide) (by decide),
    directive_setting spec (by decide) (ordinary_serviceUnit_taskID now),
    directive_setting spec (by decide) (by decide)]
  rfl

/-! ## Names that are not -/

theorem no_null_of_setting (spec : Specifiers) {text : String} {key value : Text}
    (h : .setting key value ∈ directives spec text) : '\x00' ∉ value := by
  obtain ⟨i, hi, heq⟩ := List.mem_map.mp h
  cases i with
  | header name => cases heq
  | invalid line => cases heq
  | assignment k v =>
    rw [directive] at heq
    split at heq
    · cases heq
    · cases heq
      exact not_mem_expand spec.resolve (spec.no_null) fun hmem =>
        absurd (not_isEol_of_mem_items hi _ hmem) (by decide)

/-- A description that goes on takes the line after it. -/
theorem directives_service_ne (spec : Specifiers) {req : CreateRequest} (hreq : Accepted req)
    (hnull : '\x00' ∉ req.name.toList) (hodd : isEscaped req.name.toList = true) (now : ℤ)
    (createdAt : String) {executable : String} {args : List String}
    (hwords : ∀ w ∈ executable :: args, Ordinary w) :
    directives spec (Units.unlines (serviceLines (newTask now createdAt req) executable args)) ≠
      intendedService (newTask now createdAt req) executable args := by
  have hends : ∀ c ∈ "Description".toList ++ '=' :: described "LukePanel task: " req.name,
      isEol c = false := by
    rw [List.forall_mem_append, List.forall_mem_cons]
    exact ⟨by simp [isEol], rfl, isEol_described hreq opening_service hnull⟩
  have hrest : List.Forall₂ Reads (["", "[Service]", setting "Type" "oneshot",
      setting "ExecStart" (execLine executable args), setting "NoNewPrivileges" "true"].map
        String.toList)
      [none, some (.header "Service".toList), some (.assignment "Type".toList "oneshot".toList),
        some (.assignment "ExecStart".toList (execLine executable args).toList),
        some (.assignment "NoNewPrivileges".toList "true".toList)] := by
    simp only [List.map_cons, List.map_nil, List.forall₂_cons]
    exact ⟨by decide, by decide, by decide, reads_exec hwords, by decide, .nil⟩
  have hwhole (before : Text) :
      isEscaped (before ++ (setting "After" "network-online.target").toList) = false := by
    have hlast : (setting "After" "network-online.target").toList =
        (setting "After" "network-online.targe").toList ++ ['t'] := by decide
    rw [hlast, ← List.append_assoc]
    exact isEscaped_append (by decide)
  have hpair := @items_pair _ _ hrest "[Unit]".toList
    ("Description".toList ++ '=' :: described "LukePanel task: " req.name)
    (setting "After" "network-online.target").toList (some (.header "Unit".toList))
    (some (.assignment "After".toList "network-online.target".toList)) (by decide) hends (by rfl)
    ((isEscaped_described opening_service req.name).trans hodd) (by decide) (hwhole _)
  rw [directives, toList_unlines]
  simp only [serviceLines, newTask, List.map_cons, toList_description hreq] at hpair ⊢
  rw [hpair]
  intro heq
  have hlength := congrArg List.length heq
  rw [List.length_map, List.filterMap_cons, List.filterMap_cons] at hlength
  cases hitem : item (("Description".toList ++ '=' :: described "LukePanel task: " req.name).dropLast ++
      [' '] ++ (setting "After" "network-online.target").toList) with
  | none =>
    rw [hitem] at hlength
    cases hlength
  | some i =>
    rw [hitem] at hlength
    cases hlength

/-- A description with a noncharacter is dropped. -/
theorem directives_service_dropped (spec : Specifiers) {req : CreateRequest} (hreq : Accepted req)
    (hnull : '\x00' ∉ req.name.toList) (hnonchar : req.name.toList.any isNonchar = true)
    (heven : isEscaped req.name.toList = false) (now : ℤ) (createdAt : String) {executable : String}
    {args : List String} (hwords : ∀ w ∈ executable :: args, Ordinary w) :
    directives spec (Units.unlines (serviceLines (newTask now createdAt req) executable args)) ≠
      intendedService (newTask now createdAt req) executable args := by
  have hreads : List.Forall₂ Reads
      ((serviceLines (newTask now createdAt req) executable args).map String.toList)
      [some (.header "Unit".toList),
        none,
        some (.assignment "After".toList "network-online.target".toList),
        none,
        some (.header "Service".toList),
        some (.assignment "Type".toList "oneshot".toList),
        some (.assignment "ExecStart".toList (execLine executable args).toList),
        some (.assignment "NoNewPrivileges".toList "true".toList)] := by
    simp only [serviceLines, newTask, List.map_cons, List.map_nil, List.forall₂_cons]
    exact ⟨by decide, reads_description_dropped hreq opening_service hnull hnonchar heven, by decide,
      by decide, by decide, by decide, reads_exec hwords, by decide, .nil⟩
  rw [directives_unlines spec hreads]
  intro heq
  have hlength := congrArg List.length heq
  cases hlength

/-! ## Names and units -/

/-- The units of a task mean what is meant exactly for names without a null character, without a
noncharacter and without a backslash left over at the end. -/
theorem units_iff (spec : Specifiers) {docker found : LookPath}
    (hfound : ∀ path, found = .ok path → Ordinary path) {req accepted : CreateRequest}
    (haccepted : validateRequest docker req = .ok accepted) (now : ℤ) (createdAt : String)
    {executable : String} {args : List String}
    (hcommand : command found (newTask now createdAt accepted) = .ok (executable, args)) :
    (∀ service timer, renderUnits found (newTask now createdAt accepted) = .ok (service, timer) →
      Meant spec (newTask now createdAt accepted) executable args service timer) ↔
      Neutral (GoStrings.trimSpace req.name) := by
  obtain ⟨hname, hreq⟩ := validateRequest_eq_ok haccepted
  have hwords := ordinary_command hfound hreq.target hcommand
  have hrender : renderUnits found (newTask now createdAt accepted) =
      .ok (Units.unlines (serviceLines (newTask now createdAt accepted) executable args),
        Units.unlines (timerLines (newTask now createdAt accepted))) := by
    rw [renderUnits, hcommand]
    rfl
  rw [← hname, hrender]
  constructor
  · intro hmeant
    have hservice := (hmeant _ _ rfl).service
    have hnull : '\x00' ∉ accepted.name.toList := by
      have hmem : .setting "Description".toList ("LukePanel task: ".toList ++ accepted.name.toList) ∈
          directives spec (Units.unlines (serviceLines (newTask now createdAt accepted) executable
            args)) := by
        rw [hservice]
        exact List.mem_cons_of_mem _ List.mem_cons_self
      exact fun h => no_null_of_setting spec hmem (List.mem_append_right _ h)
    have heven : isEscaped accepted.name.toList = false := by
      by_contra hodd
      exact directives_service_ne spec hreq hnull (by simpa using hodd) now createdAt hwords hservice
    refine ⟨⟨hnull, ?_⟩, ?_⟩
    · by_contra hnonchar
      exact directives_service_dropped spec hreq hnull (by simpa using hnonchar) heven now createdAt
        hwords hservice
    · rw [isEscaped, decide_eq_false_iff_not] at heven
      omega
  · rintro hneutral service timer heq
    obtain ⟨rfl, rfl⟩ := Prod.mk.inj (Except.ok.inj heq)
    exact ⟨directives_service spec hreq hneutral now createdAt hwords,
      directives_timer spec hreq hneutral now createdAt⟩

def noSpecifiers : Specifiers := ⟨fun _ => none, fun _ _ h => absurd h.symm (Option.some_ne_none _)⟩

/-- A percent sign and two backslashes at the end. -/
def percent : CreateRequest := ⟨"100% \\\\", "panel-backup", "scheduled-backups", "daily", 3, 0, 0⟩

/-- They mean themselves. -/
theorem percent_meant : Neutral (GoStrings.trimSpace (percent.name ++ " ")) ∧
    ∀ service timer, renderUnits (.error "") (newTask 1700000000123456789 "" percent) =
        .ok (service, timer) →
      Meant noSpecifiers (newTask 1700000000123456789 "" percent) "/usr/local/bin/lukepanel"
        ["--backup-auto", "--config", "/etc/lukepanel/config.json"] service timer :=
  ⟨by decide, (units_iff noSpecifiers (fun _ h => by cases h)
    (by decide : validateRequest (.error "")
      { percent with name := percent.name ++ " ", target := "" } = .ok percent)
    1700000000123456789 "" rfl).mpr (by decide)⟩

/-- A name that ends in a backslash. -/
def nightly : CreateRequest := ⟨"nightly\\", "panel-backup", "scheduled-backups", "daily", 3, 0, 0⟩

def nightlyService : String := Units.unlines (serviceLines (newTask 1700000000123456789 "" nightly)
  "/usr/local/bin/lukepanel" ["--backup-auto", "--config", "/etc/lukepanel/config.json"])

/-- The order after the network is gone from the service. -/
theorem directives_nightlyService : directives noSpecifiers nightlyService = [.header "Unit".toList,
    .setting "Description".toList "LukePanel task: nightly After=network-online.target".toList,
    .header "Service".toList, .setting "Type".toList "oneshot".toList,
    .command "ExecStart".toList (some (["/usr/local/bin/lukepanel", "--backup-auto", "--config",
      "/etc/lukepanel/config.json"].map String.toList)),
    .setting "NoNewPrivileges".toList "true".toList] := by
  rw [directives, nightlyService, toList_unlines]
  decide +kernel

theorem backslash_not_meant : ∃ service timer,
    validateRequest (.error "") { nightly with target := "" } = .ok nightly ∧
    renderUnits (.error "") (newTask 1700000000123456789 "" nightly) = .ok (service, timer) ∧
    ¬ Meant noSpecifiers (newTask 1700000000123456789 "" nightly) "/usr/local/bin/lukepanel"
      ["--backup-auto", "--config", "/etc/lukepanel/config.json"] service timer := by
  refine ⟨nightlyService, _, by decide, rfl, fun h => ?_⟩
  have hlength := congrArg List.length (directives_nightlyService.symm.trans h.service)
  cases hlength

end LukePanel.Tasks.UnitSyntax
