import LukePanel.Library.GoStrings
import Mathlib.Data.Finset.Dedup
import Mathlib.Data.Finset.Insert
import Mathlib.Data.Finset.Lattice.Basic
import Mathlib.Logic.Function.Basic

/-! # The ports of sshd

What sshd reads in its configuration, and what `Status` of `internal/sshadmin/manager.go` makes of
the effective configuration that `sshd -T` prints. -/
namespace LukePanel.SshAdmin.Sshd
open LukePanel.Library.GoStrings

/-- A port is handled as its decimal text. -/
def IsPort (port : String) : Prop := ∃ n : ℕ, 1 ≤ n ∧ n ≤ 65535 ∧ port = toString n

/-- What the panel writes besides ports. -/
def settingKeywords : List String :=
  ["PermitRootLogin ", "AllowTcpForwarding ", "AllowAgentForwarding ", "X11Forwarding "]

/-- How sshd reads a line of its configuration: the port it adds, if it is a `Port` line. -/
structure Reader where
  portOf : String → Option String
  isPort {line port : String} : portOf line = some port → IsPort port
  port_line {port : String} : IsPort port → portOf ("Port " ++ port) = some port
  blank_line {line : String} : (∀ c ∈ line.toList, isSpace c = true) → portOf line = none
  comment_line (text : String) : portOf ("#" ++ text) = none
  setting_line {keyword : String} (value : String) : keyword ∈ settingKeywords →
    portOf (keyword ++ value) = none

/-! ## The text of a port -/

namespace IsPort

variable {port : String}

theorem isDigit (h : IsPort port) : ∀ c ∈ port.toList, c.isDigit = true := by
  obtain ⟨n, _, _, rfl⟩ := h
  intro c hc
  have hdigit : c ∈ Nat.toDigits 10 n := by simpa using hc
  exact Nat.isDigit_of_mem_toDigits (by decide) (by decide) hdigit

theorem ne_empty (h : IsPort port) : port ≠ "" := by
  obtain ⟨n, _, _, rfl⟩ := h
  simp

theorem not_newline (h : IsPort port) : '\n' ∉ port.toList := fun hmem => by
  simpa using h.isDigit _ hmem

theorem fields (h : IsPort port) : fields port = [port] :=
  fields_of_no_space h.ne_empty fun c hc => isSpace_eq_false_of_isDigit (h.isDigit c hc)

theorem trimSpace_line (h : IsPort port) : trimSpace ("Port " ++ port) = "Port " ++ port := by
  refine trimSpace_eq_self (fun c hc => ?_) fun c hc => ?_
  · have hP : c = 'P' := by simpa [eq_comm] using hc
    rw [hP]
    decide
  · have hne : port.toList ≠ [] := by simpa using h.ne_empty
    rw [String.toList_append, List.getLast?_append_of_ne_nil _ hne] at hc
    exact isSpace_eq_false_of_isDigit (h.isDigit c (List.mem_of_getLast? hc))

end IsPort

/-! ## A configuration file -/

/-- `strings.Join(lines, "\n") + "\n"` -/
def written (lines : List String) : String := join '\n' lines ++ "\n"

namespace Reader

variable (sshd : Reader)

/-- The ports that the `Port` lines of a file add. -/
def portsOf (text : String) : Finset String := ((split '\n' text).filterMap sshd.portOf).toFinset

/-- Every `Port` line of the file is spelled as the panel spells it. -/
def Plain (text : String) : Prop :=
  ∀ line ∈ split '\n' text, ∀ port, sshd.portOf line = some port → line = "Port " ++ port

variable {sshd} {text port : String} {lines : List String}

theorem mem_portsOf :
    port ∈ sshd.portsOf text ↔ ∃ line ∈ split '\n' text, sshd.portOf line = some port := by
  simp [portsOf]

theorem isPort_of_mem (h : port ∈ sshd.portsOf text) : IsPort port := by
  obtain ⟨line, _, hline⟩ := mem_portsOf.mp h
  exact sshd.isPort hline

theorem portOf_empty : sshd.portOf "" = none := sshd.blank_line (by simp)

/-- Written lines are read back, and besides them only empty ones. -/
theorem mem_split_written (h : ∀ line ∈ lines, '\n' ∉ line.toList) {line : String} :
    line ∈ split '\n' (written lines) ↔ line ∈ lines ∨ line = "" := by
  have hsep : "\n" = String.ofList ['\n'] := rfl
  rw [written, hsep, split_append_sep, List.mem_append, List.mem_singleton]
  cases lines with
  | nil => simp [split, join]
  | cons first rest => rw [split_join (List.cons_ne_nil _ _) h]

theorem mem_portsOf_written (h : ∀ line ∈ lines, '\n' ∉ line.toList) :
    port ∈ sshd.portsOf (written lines) ↔ ∃ line ∈ lines, sshd.portOf line = some port := by
  rw [mem_portsOf]
  refine ⟨?_, ?_⟩
  · rintro ⟨line, hline, hport⟩
    rcases (mem_split_written h).mp hline with hline | rfl
    · exact ⟨line, hline, hport⟩
    · simp [portOf_empty] at hport
  · rintro ⟨line, hline, hport⟩
    exact ⟨line, (mem_split_written h).mpr (.inl hline), hport⟩

theorem plain_written (h : ∀ line ∈ lines, '\n' ∉ line.toList)
    (hplain : ∀ line ∈ lines, ∀ port, sshd.portOf line = some port → line = "Port " ++ port) :
    sshd.Plain (written lines) := by
  intro line hline port hport
  rcases (mem_split_written h).mp hline with hline | rfl
  · exact hplain line hline port hport
  · simp [portOf_empty] at hport

end Reader

/-! ## A reader of the panel's spelling -/

/-- The port of a line in the panel's spelling. -/
def spelledPort (line : List Char) : Option String :=
  match line with
  | 'P' :: 'o' :: 'r' :: 't' :: ' ' :: digits =>
    if 1 ≤ Nat.ofDigitChars 10 digits 0 ∧ Nat.ofDigitChars 10 digits 0 ≤ 65535 ∧
        digits = Nat.toDigits 10 (Nat.ofDigitChars 10 digits 0) then
      some (String.ofList digits)
    else none
  | _ => none

def spelledReader : Reader where
  portOf line := spelledPort line.toList
  isPort {line port} h := by
    unfold spelledPort at h
    split at h
    · rename_i digits _
      split at h
      · rename_i hdigits
        refine ⟨_, hdigits.1, hdigits.2.1, ?_⟩
        rw [← Option.some.inj h, Nat.toString_eq_ofList_toDigits, ← hdigits.2.2]
      · cases h
    · cases h
  port_line {port} h := by
    obtain ⟨n, hlow, hhigh, rfl⟩ := h
    rw [Nat.toString_eq_ofList_toDigits]
    simp [spelledPort, hlow, hhigh]
  blank_line {line} h := by
    unfold spelledPort
    split
    · rename_i hline
      exact absurd (h 'P' (hline ▸ List.mem_cons_self)) (by decide)
    · rfl
  comment_line text := by simp [spelledPort]
  setting_line {keyword} value h := by
    simp only [settingKeywords, List.mem_cons, List.not_mem_nil, or_false] at h
    rcases h with rfl | rfl | rfl | rfl <;> simp [spelledPort]

/-! ## The status -/

/-- The fields of `Status` that are read here. -/
structure Status where
  available : Bool
  error : String
  port : String
  passwordAuthentication : String
  pubkeyAuthentication : String

def setValue (values : String → String) (line : String) : String → String :=
  match fields line with
  | keyword :: value :: rest => Function.update values (toLower keyword) (join ' ' (value :: rest))
  | _ => values

/-- The map that `Status` reads its fields from. -/
def values (output : String) : String → String := (split '\n' output).foldl setValue fun _ => ""

/-- `Status`. The answer of `sshd -T` is what it prints, or why it does not. -/
def status (sshdT : Except String String) : Status :=
  match sshdT with
  | .error message => ⟨false, message, "", "", ""⟩
  | .ok output => ⟨true, "", values output "port", values output "passwordauthentication",
      values output "pubkeyauthentication"⟩

def currentPort (status : Status) : String := (fields status.port).headD "22"

/-- The value of a `port` line. -/
def portValue (line : String) : Option String :=
  match fields line with
  | keyword :: value :: rest =>
    if toLower keyword = "port" then some (join ' ' (value :: rest)) else none
  | _ => none

/-- The ports that `sshd -T` prints, in the order of their lines. -/
def reported (output : String) : List String := (split '\n' output).filterMap portValue

theorem setValue_port (values : String → String) (line : String) :
    setValue values line "port" = (portValue line).getD (values "port") := by
  unfold setValue portValue
  rcases fields line with _ | ⟨keyword, _ | ⟨value, rest⟩⟩
  · rfl
  · rfl
  · by_cases hk : toLower keyword = "port"
    · simp [hk]
    · simp [hk, Function.update_of_ne (Ne.symm hk)]

/-- Of several ports the last one is kept. -/
theorem values_port (output : String) : values output "port" = (reported output).getLastD "" := by
  have hfold : ∀ (lines : List String) (start : String → String),
      lines.foldl setValue start "port" = (lines.filterMap portValue).getLastD (start "port") := by
    intro lines
    induction lines with
    | nil => exact fun _ => rfl
    | cons line rest ih =>
      intro start
      rw [List.foldl_cons, ih, setValue_port, List.filterMap_cons]
      cases portValue line with
      | none => rfl
      | some port => rw [Option.getD_some, List.getLastD_cons]
  exact hfold _ _

theorem currentPort_mem {output : String} {ports : Finset String}
    (h : (reported output).toFinset = ports) (hne : ports.Nonempty)
    (hports : ∀ port ∈ ports, IsPort port) : currentPort (status (.ok output)) ∈ ports := by
  have hreported : reported output ≠ [] := by
    intro hnil
    rw [hnil] at h
    exact hne.ne_empty h.symm
  have hmem : values output "port" ∈ ports := by
    rw [values_port, ← h, List.mem_toFinset, List.getLastD_eq_getLast?,
      List.getLast?_eq_some_getLast hreported]
    exact List.getLast_mem hreported
  simp only [currentPort, status, (hports _ hmem).fields, List.headD_cons]
  exact hmem

end LukePanel.SshAdmin.Sshd
