import LukePanel.Files.LineDiff
import LukePanel.Files.Versions
import LukePanel.Library.SplitLists

/-! # The diff of a file and one of its versions

`BackupDiff` of `internal/files/versions.go` from the two texts on: `splitLines` and what
`unifiedLineDiff` prints. -/
namespace LukePanel.Files.BackupDiff
open LukePanel.Library.EditScript LukePanel.Library.FileSystem LukePanel.Library.SplitLists
open LukePanel.Files.LineDiff LukePanel.Files.Versions

/-- `2 << 20`: a line of that many bytes fills the buffer of the scanner, which then stops. -/
def maxTokenSize : ℕ := 2097152

/-- `bufio.ScanLines` takes a carriage return at the end of a line for a part of the line break. -/
def dropCR (line : Bytes) : Bytes := if line.getLast? = some 13 then line.dropLast else line

def splitLines (text : Bytes) : List Bytes :=
  let lines := text.splitOn 10
  -- behind the last newline there may be one more line, but no empty one
  let lines := if lines.getLast? = some [] then lines.dropLast else lines
  let lines := (lines.takeWhile fun line => line.length < maxTokenSize).map dropCR
  if text.getLast? = some 10 then lines ++ [[]] else lines

/-- The two lines above the script. -/
def header (name backupTime : String) : Bytes :=
  ("--- " ++ name ++ "（备份 " ++ backupTime ++ "）\n+++ " ++ name ++ "（当前）\n").toUTF8.toList

/-- The diff, and whether it is called truncated. -/
def unifiedLineDiff (oldText newText : Bytes) (name backupTime : String) : Bytes × Bool :=
  let script := diffLines (splitLines oldText) (splitLines newText)
  (header name backupTime ++ printed script.1, script.2)

/-- What `BackupDiff` accepts. -/
structure Accepted (text : Bytes) : Prop where
  size : text.length ≤ maxEditableSize
  notBinary : isBinary text = false

/-- The script under the header. -/
def scriptOf (name backupTime : String) (diff : Bytes) : Bytes :=
  diff.drop (header name backupTime).length

/-- The lines with these marks, as a text. -/
def textOf (marks : List UInt8) (script : Bytes) : Bytes := [10].intercalate (marked marks script)

/-- A diff without changes tells that the texts are the same, and one with changes what both are. -/
def Shows (oldText newText : Bytes) (name backupTime : String) : Prop :=
  let script := scriptOf name backupTime (unifiedLineDiff oldText newText name backupTime).1
  (marked [43, 45] script = [] ↔ oldText = newText) ∧
    (oldText ≠ newText → textOf [32, 45] script = oldText ∧ textOf [32, 43] script = newText)

/-- No line ends with a carriage return, and there is a newline or room in the buffer. -/
structure Plain (text : Bytes) : Prop where
  noCR : ∀ line ∈ text.splitOn 10, line.getLast? ≠ some 13
  fits : ¬ (text.length = maxTokenSize ∧ 10 ∉ text)

variable {oldText newText text line : Bytes}

/-! ## Splitting -/

theorem dropCR_eq_self : dropCR line = line ↔ line.getLast? ≠ some 13 := by
  unfold dropCR
  constructor
  · intro h hlast
    rw [if_pos hlast] at h
    have hlength := congrArg List.length h
    have hne : line ≠ [] := by
      rintro rfl
      cases hlast
    rw [List.length_dropLast] at hlength
    have hpos := List.length_pos_iff.mpr hne
    omega
  · intro h
    rw [if_neg h]

theorem not_mem_dropCR (h : 10 ∉ line) : 10 ∉ dropCR line := by
  unfold dropCR
  split
  · exact fun hmem => h (List.dropLast_subset line hmem)
  · exact h

/-- The lines of an accepted text: nothing if it is empty, or one line that fills the buffer. -/
theorem splitLines_eq (hsize : text.length ≤ maxTokenSize) : splitLines text =
    if text = [] ∨ (text.length = maxTokenSize ∧ 10 ∉ text) then []
    else (text.splitOn 10).map dropCR := by
  unfold splitLines
  dsimp only
  rcases splitOn_last 10 text with ⟨hsplit, hmem⟩ | ⟨pieces, last, before, hpieces, hsplit, htext⟩
  · have hlast : text.getLast? ≠ some 10 := fun h => hmem (List.mem_of_getLast? h)
    rw [hsplit, if_neg hlast]
    by_cases hempty : text = []
    · subst hempty
      rfl
    · have hsome : ([text] : List Bytes).getLast? ≠ some [] := by simp [hempty]
      rw [if_neg hsome]
      by_cases hfull : text.length = maxTokenSize
      · rw [if_pos (Or.inr ⟨hfull, hmem⟩)]
        simp [hfull]
      · have hlt : text.length < maxTokenSize := by omega
        simp [hempty, hfull, hlt]
  · have hmem : 10 ∈ text := by
      rw [htext]
      simp
    have hshort : ∀ piece ∈ text.splitOn 10, piece.length < maxTokenSize := fun piece hpiece =>
      Nat.lt_of_lt_of_le (length_lt_of_mem_splitOn hmem hpiece) hsize
    have hne : ¬ (text = [] ∨ (text.length = maxTokenSize ∧ 10 ∉ text)) := by
      rintro (rfl | ⟨-, hnot⟩)
      · cases hmem
      · exact hnot hmem
    have hall : ∀ l : List Bytes, l ⊆ text.splitOn 10 →
        (l.takeWhile fun line => line.length < maxTokenSize) = l := fun l hl =>
      List.takeWhile_eq_self_iff.mpr fun piece hpiece => by simpa using hshort piece (hl hpiece)
    rw [if_neg hne]
    rw [hsplit] at hall ⊢
    rw [List.getLast?_concat, List.dropLast_concat]
    by_cases hlast : last = []
    · subst hlast
      have hend : text.getLast? = some 10 := by
        rw [htext]
        simp
      rw [if_pos rfl, if_pos hend, hall pieces (List.subset_append_left _ _), List.map_append]
      rfl
    · have hend : text.getLast? ≠ some 10 := by
        intro hend
        have hin : last ∈ text.splitOn 10 := by
          rw [hsplit]
          simp
        have hnot := not_mem_of_mem_splitOn last hin
        rcases List.eq_nil_or_concat last with hnil | ⟨front, b, hlast'⟩
        · exact hlast hnil
        · rw [List.concat_eq_append] at hlast'
          rw [htext, hlast', ← List.cons_append, ← List.append_assoc, List.getLast?_concat] at hend
          obtain rfl : b = 10 := Option.some.inj hend
          exact hnot (by rw [hlast']; simp)
      have hsome : (some last : Option Bytes) ≠ some [] := fun h => hlast (Option.some.inj h)
      rw [if_neg hend, if_neg hsome, hall _ (List.Subset.refl _)]

/-! ## Both sides of the diff -/

/-- Joining the lines gives a text back exactly if it is plain. -/
theorem join_splitLines (hsize : text.length ≤ maxTokenSize) :
    [10].intercalate (splitLines text) = text ↔ Plain text := by
  rw [splitLines_eq hsize]
  by_cases hnone : text = [] ∨ (text.length = maxTokenSize ∧ 10 ∉ text)
  · rw [if_pos hnone, List.intercalate_nil]
    rcases hnone with rfl | hfull
    · refine ⟨fun _ => ⟨by simp, by decide⟩, fun _ => rfl⟩
    · constructor
      · rintro rfl
        exact absurd hfull.1 (by decide)
      · exact fun h => absurd hfull h.fits
  · rw [if_neg hnone]
    rw [not_or] at hnone
    have hpieces : ∀ line ∈ (text.splitOn 10).map dropCR, 10 ∉ line := by
      intro line hline
      obtain ⟨piece, hpiece, rfl⟩ := List.mem_map.mp hline
      exact not_mem_dropCR (not_mem_of_mem_splitOn piece hpiece)
    have hne : (text.splitOn 10).map dropCR ≠ [] := by
      simp [List.splitOn_ne_nil]
    constructor
    · intro h
      have hsplit := List.splitOn_intercalate 10 hpieces hne
      rw [h] at hsplit
      refine ⟨fun line hline => dropCR_eq_self.mp ?_, hnone.2⟩
      have hsame : (text.splitOn 10).map dropCR = (text.splitOn 10).map id := by
        rw [← hsplit, List.map_id]
      exact List.map_inj_left.mp hsame line hline
    · intro h
      have hsame : (text.splitOn 10).map dropCR = (text.splitOn 10).map id :=
        List.map_congr_left fun line hline => dropCR_eq_self.mpr (h.noCR line hline)
      rw [hsame, List.map_id, List.intercalate_splitOn]

theorem not_mem_splitLines (hsize : text.length ≤ maxTokenSize) :
    ∀ line ∈ splitLines text, 10 ∉ line := by
  intro line hline
  rw [splitLines_eq hsize] at hline
  split at hline
  · cases hline
  · obtain ⟨piece, hpiece, rfl⟩ := List.mem_map.mp hline
    exact not_mem_dropCR (not_mem_of_mem_splitOn piece hpiece)

/-- A diff that is not called truncated is that of all lines, through the table. -/
theorem diffLines_whole {oldLines newLines : List Bytes}
    (h : (diffLines oldLines newLines).2 = false) :
    oldSide (diffLines oldLines newLines).1 = oldLines ∧
      newSide (diffLines oldLines newLines).1 = newLines ∧
        Longest (common (diffLines oldLines newLines).1).length oldLines newLines := by
  obtain ⟨hold, hnew, hcommon⟩ := diffLines_spec oldLines newLines
  unfold diffLines at h
  dsimp only at h
  split at h
  · cases h
  · rename_i hsmall
    rw [decide_eq_false_iff_not, not_or, not_lt, not_lt] at h
    have htakeOld : oldLines.take maxLines = oldLines := List.take_of_length_le h.1
    have htakeNew : newLines.take maxLines = newLines := List.take_of_length_le h.2
    simp only [htakeOld, htakeNew] at hold hnew hcommon hsmall
    exact ⟨hold, hnew, hcommon (Nat.not_lt.mp hsmall)⟩

/-- **When the diff tells the truth**: of two accepted texts, if they are the same or both plain. -/
theorem shows_iff (oldText newText : Bytes) (name backupTime : String) (hold : Accepted oldText)
    (hnew : Accepted newText)
    (hwhole : (unifiedLineDiff oldText newText name backupTime).2 = false) :
    Shows oldText newText name backupTime ↔
      oldText = newText ∨ (Plain oldText ∧ Plain newText) := by
  have hjoinOld := @join_splitLines oldText hold.size
  have hjoinNew := @join_splitLines newText hnew.size
  obtain ⟨hsideOld, hsideNew, hlongest⟩ := diffLines_whole hwhole
  have hlines : ∀ line ∈ splitLines oldText ++ splitLines newText, 10 ∉ line := by
    intro line hline
    rcases List.mem_append.mp hline with hline | hline
    · exact not_mem_splitLines hold.size line hline
    · exact not_mem_splitLines hnew.size line hline
  have hedits := line_of_sides hsideOld hsideNew hlines
  have hscript : scriptOf name backupTime (unifiedLineDiff oldText newText name backupTime).1 =
      printed (diffLines (splitLines oldText) (splitLines newText)).1 := List.drop_left
  have hchanges : marked [43, 45] (printed (diffLines (splitLines oldText) (splitLines newText)).1) =
      [] ↔ splitLines oldText = splitLines newText := by
    have hsides := @changes_eq_nil _ (diffLines (splitLines oldText) (splitLines newText)).1
      (by rw [hsideOld, hsideNew]; exact hlongest)
    rw [hsideOld, hsideNew] at hsides
    rw [marked_printed hedits changed_marks]
    exact hsides
  have htextOld : textOf [32, 45] (printed (diffLines (splitLines oldText) (splitLines newText)).1) =
      [10].intercalate (splitLines oldText) := by
    rw [textOf, marked_printed hedits inOld_marks]
    exact congrArg _ hsideOld
  have htextNew : textOf [32, 43] (printed (diffLines (splitLines oldText) (splitLines newText)).1) =
      [10].intercalate (splitLines newText) := by
    rw [textOf, marked_printed hedits inNew_marks]
    exact congrArg _ hsideNew
  unfold Shows
  simp only [hscript]
  rw [hchanges, htextOld, htextNew, hjoinOld, hjoinNew]
  constructor
  · intro h
    by_cases heq : oldText = newText
    · exact Or.inl heq
    · exact Or.inr (h.2 heq)
  · rintro (rfl | ⟨hplainOld, hplainNew⟩)
    · exact ⟨⟨fun _ => rfl, fun _ => rfl⟩, fun hne => absurd rfl hne⟩
    · refine ⟨⟨fun heq => ?_, fun heq => by rw [heq]⟩, fun _ => ⟨hplainOld, hplainNew⟩⟩
      rw [← hjoinOld.mpr hplainOld, heq, hjoinNew.mpr hplainNew]

theorem newline_text_shown : Shows [97, 10] [98] "motd" "2026-01-01 00:00:00" := by
  have hold : Accepted [97, 10] := ⟨by decide, by decide⟩
  have hnew : Accepted [98] := ⟨by decide, by decide⟩
  exact (shows_iff [97, 10] [98] "motd" "2026-01-01 00:00:00" hold hnew (by decide)).mpr
    (Or.inr ⟨⟨by decide, by decide⟩, ⟨by decide, by decide⟩⟩)

/-- Line breaks of two kinds: the texts differ, and the diff has no changes. -/
theorem crlf_not_shown : Accepted [97, 13, 10] ∧ Accepted [97, 10] ∧
    (unifiedLineDiff [97, 13, 10] [97, 10] "motd" "2026-01-01 00:00:00").2 = false ∧
      ¬ Shows [97, 13, 10] [97, 10] "motd" "2026-01-01 00:00:00" := by
  have hold : Accepted [97, 13, 10] := ⟨by decide, by decide⟩
  have hnew : Accepted [97, 10] := ⟨by decide, by decide⟩
  refine ⟨hold, hnew, by decide, fun h => ?_⟩
  have hscript : scriptOf "motd" "2026-01-01 00:00:00"
      (unifiedLineDiff [97, 13, 10] [97, 10] "motd" "2026-01-01 00:00:00").1 =
        printed (diffLines (splitLines [97, 13, 10]) (splitLines [97, 10])).1 := List.drop_left
  have hnone : marked [43, 45]
      (printed (diffLines (splitLines [97, 13, 10]) (splitLines [97, 10])).1) = [] := by decide
  unfold Shows at h
  simp only [hscript] at h
  exact absurd (h.1.mp hnone) (by decide)

end LukePanel.Files.BackupDiff
