import LukePanel.Library.EditScript
import LukePanel.Library.FileSystem
import Mathlib.Data.List.TakeDrop

/-! # Line diffs

`unifiedLineDiff` and `simpleChangedBlock` of `internal/files/versions.go`, from the lines of both
texts to the text that is printed. -/
namespace LukePanel.Files.LineDiff
open LukePanel.Library.EditScript LukePanel.Library.FileSystem

section

variable {α : Type*} [DecidableEq α]

/-- A row of `dp` from the row below it, the last column first. -/
def fillRow (line : α) : List α → List UInt16 → List UInt16
  | [], _ => [0]
  | other :: rest, below =>
    let right := fillRow line rest below.tail
    (if line = other then below.getD 1 0 + 1
      else if right.getD 0 0 ≤ below.getD 0 0 then below.getD 0 0
      else right.getD 0 0) :: right

/-- The rows of `dp`, filled from the last one on. -/
def fill : List α → List α → List (List UInt16)
  | [], newLines => [List.replicate (newLines.length + 1) 0]
  | line :: rest, newLines =>
    let below := fill rest newLines
    fillRow line newLines (below.getD 0 []) :: below

/-- `dp[i][j]` -/
def entry (dp : List (List UInt16)) (i j : ℕ) : UInt16 := (dp.getD i []).getD j 0

/-- The loop from `i` and `j` on, and what is left of either list after it. -/
def walk (dp : List (List UInt16)) (oldLines newLines : List α) : ℕ → ℕ → ℕ → List (Edit α)
  | 0, _, _ => []
  | fuel + 1, i, j =>
    match oldLines[i]?, newLines[j]? with
    | some line, some other =>
      if line = other then .context line :: walk dp oldLines newLines fuel (i + 1) (j + 1)
      else if entry dp i (j + 1) ≤ entry dp (i + 1) j then
        .removed line :: walk dp oldLines newLines fuel (i + 1) j
      else .added other :: walk dp oldLines newLines fuel i (j + 1)
    | _, _ => (oldLines.drop i).map .removed ++ (newLines.drop j).map .added

/-- Each round takes a line, so the lines of both are fuel enough. -/
def dynamic (oldLines newLines : List α) : List (Edit α) :=
  walk (fill oldLines newLines) oldLines newLines (oldLines.length + newLines.length + 1) 0 0

/-- How many lines at the head are the same. -/
def sameHead : List α → List α → ℕ
  | line :: oldRest, other :: newRest => if line = other then sameHead oldRest newRest + 1 else 0
  | _, _ => 0

/-- `suffix` counts no line that `head` has counted. -/
def simpleChangedBlock (oldLines newLines : List α) : List (Edit α) :=
  let head := sameHead oldLines newLines
  let suffix := sameHead (oldLines.drop head).reverse (newLines.drop head).reverse
  (oldLines.take head).map .context ++
    ((oldLines.take (oldLines.length - suffix)).drop head).map .removed ++
    ((newLines.take (newLines.length - suffix)).drop head).map .added ++
    (oldLines.drop (oldLines.length - suffix)).map .context

def maxLines : ℕ := 1200

/-- The script `unifiedLineDiff` prints for the lines of both texts, and whether it is called
truncated. -/
def diffLines (oldLines newLines : List α) : List (Edit α) × Bool :=
  let truncated := decide (maxLines < oldLines.length ∨ maxLines < newLines.length)
  let oldLines := oldLines.take maxLines
  let newLines := newLines.take maxLines
  if 900000 < oldLines.length * newLines.length then (simpleChangedBlock oldLines newLines, true)
  else (dynamic oldLines newLines, truncated)

end

/-! ## What is printed -/

def mark : Edit Bytes → UInt8
  | .context _ => 32
  | .removed _ => 45
  | .added _ => 43

/-- `fmt.Fprintln` of each line behind its mark. -/
def printed (script : List (Edit Bytes)) : Bytes :=
  script.flatMap fun e => mark e :: e.line ++ [10]

/-- The lines of a printed script that have one of the marks, without it. -/
def marked (marks : List UInt8) (text : Bytes) : List Bytes :=
  ((text.splitOn 10).dropLast.filter fun l => l.head?.any (marks.contains ·)).map List.tail

/-! ## The table -/

section

variable {α : Type*} [DecidableEq α] {oldLines newLines : List α}

theorem getD_tail (l : List UInt16) (j : ℕ) : l.tail.getD j 0 = l.getD (j + 1) 0 := by
  cases l <;> rfl

/-- A row holds lengths for one line more than the row below it. -/
theorem fillRow_longest {line : α} {rest : List α} (hrest : rest.length < 65535)
    {below : List UInt16}
    (hbelow : ∀ j ≤ newLines.length, Longest (below.getD j 0).toNat rest (newLines.drop j)) :
    ∀ j ≤ newLines.length,
      Longest ((fillRow line newLines below).getD j 0).toNat (line :: rest) (newLines.drop j) := by
  induction newLines generalizing below with
  | nil =>
    intro j hj
    obtain rfl : j = 0 := Nat.le_zero.mp hj
    exact .nil_right _
  | cons other tail ih =>
    have hshifted : ∀ j ≤ tail.length,
        Longest (below.tail.getD j 0).toNat rest (tail.drop j) := fun j hj => by
      rw [getD_tail]
      exact hbelow (j + 1) (Nat.succ_le_succ hj)
    have hright := ih hshifted
    intro j hj
    cases j with
    | succ j => exact hright j (Nat.le_of_succ_le_succ hj)
    | zero =>
      have hdown := hbelow 0 (Nat.zero_le _)
      have hside := hright 0 (Nat.zero_le _)
      have hdiagonal := hbelow 1 (Nat.succ_le_succ (Nat.zero_le _))
      rw [List.drop_zero] at hside hdown ⊢
      rw [List.drop_succ_cons, List.drop_zero] at hdiagonal
      unfold fillRow
      simp only [List.getD_cons_zero]
      split
      · rename_i hsame
        subst hsame
        have hroom := hdiagonal.le_length
        have hsucc : (below.getD 1 0 + 1).toNat = (below.getD 1 0).toNat + 1 := by
          have hone : (1 : UInt16).toNat = 1 := rfl
          rw [UInt16.toNat_add, hone]
          exact Nat.mod_eq_of_lt (by omega)
        rw [hsucc]
        exact hdiagonal.cons_same line
      · rename_i hne
        have hlongest := Longest.cons_ne hne hdown hside
        split
        · rename_i hle
          rwa [Nat.max_eq_left (UInt16.le_iff_toNat_le.mp hle)] at hlongest
        · rename_i hlt
          rw [UInt16.le_iff_toNat_le] at hlt
          rwa [Nat.max_eq_right (by omega)] at hlongest

/-- **The table holds the lengths of longest common subsequences**: no entry overflows. -/
theorem fill_longest (hlength : oldLines.length < 65536) :
    ∀ i ≤ oldLines.length, ∀ j ≤ newLines.length,
      Longest (entry (fill oldLines newLines) i j).toNat (oldLines.drop i) (newLines.drop j) := by
  induction oldLines with
  | nil =>
    intro i hi j _
    obtain rfl : i = 0 := Nat.le_zero.mp hi
    have hzero : entry (fill ([] : List α) newLines) 0 j = 0 := by
      change (List.replicate (newLines.length + 1) (0 : UInt16)).getD j 0 = 0
      rw [List.getD_eq_getElem?_getD, List.getElem?_replicate]
      split <;> rfl
    rw [hzero]
    exact .nil_left _
  | cons line rest ih =>
    have hrest : rest.length < 65535 := by
      rw [List.length_cons] at hlength
      omega
    intro i hi j hj
    cases i with
    | succ i => exact ih (by omega) i (Nat.le_of_succ_le_succ hi) j hj
    | zero =>
      refine fillRow_longest hrest (fun j hj => ?_) j hj
      exact ih (by omega) 0 (Nat.zero_le _) j hj

/-! ## The walk through the table -/

/-- From any point on the walk goes through what is left of both lists, and has as much in common as
there is. -/
theorem walk_spec {dp : List (List UInt16)}
    (hdp : ∀ i ≤ oldLines.length, ∀ j ≤ newLines.length,
      Longest (entry dp i j).toNat (oldLines.drop i) (newLines.drop j))
    (fuel : ℕ) {i j : ℕ} (hi : i ≤ oldLines.length) (hj : j ≤ newLines.length)
    (hfuel : oldLines.length - i + (newLines.length - j) < fuel) :
    oldSide (walk dp oldLines newLines fuel i j) = oldLines.drop i ∧
      newSide (walk dp oldLines newLines fuel i j) = newLines.drop j ∧
        Longest (common (walk dp oldLines newLines fuel i j)).length (oldLines.drop i)
          (newLines.drop j) := by
  induction fuel generalizing i j with
  | zero => omega
  | succ fuel ih =>
    unfold walk
    split
    · rename_i line other hline hother
      obtain ⟨hi', rfl⟩ := List.getElem?_eq_some_iff.mp hline
      obtain ⟨hj', rfl⟩ := List.getElem?_eq_some_iff.mp hother
      have hdropOld := List.drop_eq_getElem_cons hi'
      have hdropNew := List.drop_eq_getElem_cons hj'
      split
      · rename_i hsame
        obtain ⟨hold, hnew, hcommon⟩ := ih (i := i + 1) (j := j + 1) hi' hj' (by omega)
        rw [hdropOld, hdropNew]
        refine ⟨by simp [hold], by simp [hnew, hsame], ?_⟩
        have hboth := hcommon.cons_same oldLines[i]
        rw [← hsame]
        exact hboth
      · rename_i hne
        -- the side with more in common is the one the table points to
        have hmax := Longest.cons_ne hne (hdropNew ▸ hdp (i + 1) hi' j hj)
          (hdropOld ▸ hdp i hi (j + 1) hj')
        split
        · rename_i hle
          obtain ⟨hold, hnew, hcommon⟩ := ih (i := i + 1) (j := j) hi' hj (by omega)
          have hlength := hcommon.unique (hdp (i + 1) hi' j hj)
          rw [Nat.max_eq_left (UInt16.le_iff_toNat_le.mp hle), ← hlength] at hmax
          rw [hdropOld]
          refine ⟨by simp [hold], by simp [hnew], ?_⟩
          rw [hdropNew]
          simpa using hmax
        · rename_i hlt
          obtain ⟨hold, hnew, hcommon⟩ := ih (i := i) (j := j + 1) hi hj' (by omega)
          have hlength := hcommon.unique (hdp i hi (j + 1) hj')
          rw [UInt16.le_iff_toNat_le] at hlt
          rw [Nat.max_eq_right (by omega), ← hlength] at hmax
          rw [hdropNew]
          refine ⟨by simp [hold], by simp [hnew], ?_⟩
          rw [hdropOld]
          simpa using hmax
    · rename_i hend
      have hnone : oldLines.drop i = [] ∨ newLines.drop j = [] := by
        rw [List.drop_eq_nil_iff, List.drop_eq_nil_iff]
        by_contra hboth
        rw [not_or, not_le, not_le] at hboth
        exact hend _ _ (List.getElem?_eq_getElem hboth.1) (List.getElem?_eq_getElem hboth.2)
      unfold oldSide newSide common
      rw [side_append, side_append, side_append, side_map (fun _ => rfl) (fun _ => rfl),
        side_map_none (p := Edit.inOld) (f := .added) (fun _ => rfl),
        side_map_none (p := Edit.inNew) (f := .removed) (fun _ => rfl),
        side_map (fun _ => rfl) (fun _ => rfl),
        side_map_none (p := Edit.unchanged) (f := .removed) (fun _ => rfl),
        side_map_none (p := Edit.unchanged) (f := .added) (fun _ => rfl)]
      refine ⟨List.append_nil _, List.nil_append _, ?_⟩
      rcases hnone with hnone | hnone
      · rw [hnone]
        exact .nil_left _
      · rw [hnone]
        exact .nil_right _

/-- **The script of the table** goes from one list to the other, with as much in common as there
is. -/
theorem dynamic_spec (hlength : oldLines.length < 65536) :
    oldSide (dynamic oldLines newLines) = oldLines ∧ newSide (dynamic oldLines newLines) = newLines ∧
      Longest (common (dynamic oldLines newLines)).length oldLines newLines :=
  walk_spec (fill_longest hlength) _ (Nat.zero_le _) (Nat.zero_le _) (by omega)

/-! ## The changed block -/

theorem sameHead_le : sameHead oldLines newLines ≤ oldLines.length ∧
    sameHead oldLines newLines ≤ newLines.length := by
  induction oldLines generalizing newLines with
  | nil => exact ⟨Nat.le_refl _, Nat.zero_le _⟩
  | cons line oldRest ih =>
    cases newLines with
    | nil => exact ⟨Nat.zero_le _, Nat.le_refl _⟩
    | cons other newRest =>
      rw [sameHead]
      split
      · exact ⟨Nat.succ_le_succ ih.1, Nat.succ_le_succ ih.2⟩
      · exact ⟨Nat.zero_le _, Nat.zero_le _⟩

theorem take_sameHead :
    oldLines.take (sameHead oldLines newLines) = newLines.take (sameHead oldLines newLines) := by
  induction oldLines generalizing newLines with
  | nil => rfl
  | cons line oldRest ih =>
    cases newLines with
    | nil => rfl
    | cons other newRest =>
      rw [sameHead]
      split
      · rename_i hsame
        rw [List.take_succ_cons, List.take_succ_cons, ih, hsame]
      · rfl

/-- The last lines that are the same, none of which is counted at the head too. -/
theorem drop_sameTail {head : ℕ} (hold : head ≤ oldLines.length) (hnew : head ≤ newLines.length)
    {tail : ℕ} (htail : tail = sameHead (oldLines.drop head).reverse (newLines.drop head).reverse) :
    head + tail ≤ oldLines.length ∧ head + tail ≤ newLines.length ∧
      oldLines.drop (oldLines.length - tail) = newLines.drop (newLines.length - tail) := by
  have hle := @sameHead_le _ _ (oldLines.drop head).reverse (newLines.drop head).reverse
  have hsame := @take_sameHead _ _ (oldLines.drop head).reverse (newLines.drop head).reverse
  rw [← htail] at hle hsame
  rw [List.length_reverse, List.length_reverse, List.length_drop, List.length_drop] at hle
  rw [List.take_reverse, List.take_reverse, List.reverse_inj, List.drop_drop, List.drop_drop,
    List.length_drop, List.length_drop] at hsame
  have hposOld : head + (oldLines.length - head - tail) = oldLines.length - tail := by omega
  have hposNew : head + (newLines.length - head - tail) = newLines.length - tail := by omega
  rw [hposOld, hposNew] at hsame
  exact ⟨by omega, by omega, hsame⟩

/-- A list in three parts. -/
theorem take_middle_drop {β : Type*} {l : List β} {head tail : ℕ} (h : head + tail ≤ l.length) :
    l.take head ++ (l.take (l.length - tail)).drop head ++ l.drop (l.length - tail) = l := by
  have hhead : l.take head = (l.take (l.length - tail)).take head := by
    rw [List.take_take, Nat.min_eq_left (by omega)]
  rw [hhead, List.take_append_drop, List.take_append_drop]

/-- **The changed block** goes from one list to the other too. -/
theorem simpleChangedBlock_spec : oldSide (simpleChangedBlock oldLines newLines) = oldLines ∧
    newSide (simpleChangedBlock oldLines newLines) = newLines := by
  obtain ⟨hold, hnew⟩ := @sameHead_le _ _ oldLines newLines
  obtain ⟨holdTail, hnewTail, htail⟩ := drop_sameTail hold hnew rfl
  unfold simpleChangedBlock oldSide newSide
  simp only [side_append]
  constructor
  · rw [side_map (fun _ => rfl) (fun _ => rfl), side_map (fun _ => rfl) (fun _ => rfl),
      side_map_none (fun _ => rfl), side_map (fun _ => rfl) (fun _ => rfl), List.append_nil]
    exact take_middle_drop holdTail
  · rw [side_map (fun _ => rfl) (fun _ => rfl), side_map_none (fun _ => rfl),
      side_map (fun _ => rfl) (fun _ => rfl), side_map (fun _ => rfl) (fun _ => rfl),
      List.append_nil, take_sameHead, htail]
    exact take_middle_drop hnewTail

end

/-! ## Reading a printed script -/

theorem splitOn_printed {script : List (Edit Bytes)} (h : ∀ e ∈ script, 10 ∉ e.line) :
    (printed script).splitOn 10 = script.map (fun e => mark e :: e.line) ++ [[]] := by
  induction script with
  | nil => rfl
  | cons e rest ih =>
    have hmark : 10 ∉ mark e :: e.line := by
      intro hmem
      rcases List.mem_cons.mp hmem with heq | hmem
      · cases e <;> cases heq
      · exact h e List.mem_cons_self hmem
    have hprinted : printed (e :: rest) = (mark e :: e.line) ++ 10 :: printed rest := by
      simp [printed]
    rw [hprinted, List.splitOn_append_cons_self_of_not_mem hmark,
      ih fun e he => h e (List.mem_cons_of_mem _ he)]
    rfl

/-- A printed script is read off by its marks. -/
theorem marked_printed {script : List (Edit Bytes)} (h : ∀ e ∈ script, 10 ∉ e.line)
    {marks : List UInt8} {p : Edit Bytes → Bool} (hp : ∀ e, marks.contains (mark e) = p e) :
    marked marks (printed script) = side p script := by
  unfold marked
  rw [splitOn_printed h, List.dropLast_concat, List.filter_map, List.map_map]
  have hfilter : ((fun l : Bytes => l.head?.any (marks.contains ·)) ∘ fun e : Edit Bytes =>
      mark e :: e.line) = p := by
    funext e
    exact hp e
  rw [hfilter]
  rfl

theorem inOld_marks (e : Edit Bytes) : [32, 45].contains (mark e) = e.inOld := by
  cases e <;> rfl

theorem inNew_marks (e : Edit Bytes) : [32, 43].contains (mark e) = e.inNew := by
  cases e <;> rfl

theorem unchanged_marks (e : Edit Bytes) : [32].contains (mark e) = e.unchanged := by
  cases e <;> rfl

theorem changed_marks (e : Edit Bytes) : [43, 45].contains (mark e) = e.changed := by
  cases e <;> rfl

theorem mem_sides {α : Type*} {script : List (Edit α)} {e : Edit α} (h : e ∈ script) :
    e.line ∈ oldSide script ∨ e.line ∈ newSide script := by
  cases e with
  | context line => exact Or.inl (List.mem_map.mpr ⟨_, List.mem_filter.mpr ⟨h, rfl⟩, rfl⟩)
  | removed line => exact Or.inl (List.mem_map.mpr ⟨_, List.mem_filter.mpr ⟨h, rfl⟩, rfl⟩)
  | added line => exact Or.inr (List.mem_map.mpr ⟨_, List.mem_filter.mpr ⟨h, rfl⟩, rfl⟩)

/-- The lines of a script are lines of one of its sides. -/
theorem line_of_sides {script : List (Edit Bytes)} {oldLines newLines : List Bytes}
    (hold : oldSide script = oldLines) (hnew : newSide script = newLines)
    (h : ∀ line ∈ oldLines ++ newLines, 10 ∉ line) : ∀ e ∈ script, 10 ∉ e.line := by
  intro e he
  rcases mem_sides he with hmem | hmem
  · exact h _ (List.mem_append_left _ (hold ▸ hmem))
  · exact h _ (List.mem_append_right _ (hnew ▸ hmem))

theorem diffLines_spec {α : Type*} [DecidableEq α] (oldLines newLines : List α) :
    oldSide (diffLines oldLines newLines).1 = oldLines.take maxLines ∧
      newSide (diffLines oldLines newLines).1 = newLines.take maxLines ∧
        ((oldLines.take maxLines).length * (newLines.take maxLines).length ≤ 900000 →
          Longest (common (diffLines oldLines newLines).1).length (oldLines.take maxLines)
            (newLines.take maxLines)) := by
  unfold diffLines
  dsimp only
  split
  · rename_i hlarge
    obtain ⟨hold, hnew⟩ := @simpleChangedBlock_spec _ _ (oldLines.take maxLines)
      (newLines.take maxLines)
    exact ⟨hold, hnew, fun hsmall => absurd hsmall (Nat.not_le.mpr hlarge)⟩
  · have hlength : (oldLines.take maxLines).length < 65536 :=
      Nat.lt_of_le_of_lt (List.length_take_le _ _) (by decide)
    obtain ⟨hold, hnew, hcommon⟩ := @dynamic_spec _ _ _ (newLines.take maxLines) hlength
    exact ⟨hold, hnew, fun _ => hcommon⟩

/-- **What is printed is an edit script**: its context and removed lines are the old lines, its
context and added lines the new ones, both up to the number of lines that are compared; and the table
leaves as many lines unchanged as there are in a longest common subsequence. -/
theorem printed_script (oldLines newLines : List Bytes)
    (h : ∀ line ∈ oldLines ++ newLines, 10 ∉ line) :
    (marked [32, 45] (printed (diffLines oldLines newLines).1) = oldLines.take maxLines ∧
      marked [32, 43] (printed (diffLines oldLines newLines).1) = newLines.take maxLines) ∧
    ((oldLines.take maxLines).length * (newLines.take maxLines).length ≤ 900000 →
      Longest (marked [32] (printed (diffLines oldLines newLines).1)).length
        (oldLines.take maxLines) (newLines.take maxLines)) ∧
    marked [32, 45] (printed (simpleChangedBlock oldLines newLines)) = oldLines ∧
      marked [32, 43] (printed (simpleChangedBlock oldLines newLines)) = newLines := by
  obtain ⟨hold, hnew, hcommon⟩ := diffLines_spec oldLines newLines
  have htaken : ∀ line ∈ oldLines.take maxLines ++ newLines.take maxLines, 10 ∉ line := by
    intro line hline
    rcases List.mem_append.mp hline with hmem | hmem
    · exact h line (List.mem_append_left _ (List.mem_of_mem_take hmem))
    · exact h line (List.mem_append_right _ (List.mem_of_mem_take hmem))
  have hlines := line_of_sides hold hnew htaken
  obtain ⟨holdBlock, hnewBlock⟩ := @simpleChangedBlock_spec _ _ oldLines newLines
  have hblock := line_of_sides holdBlock hnewBlock h
  refine ⟨⟨?_, ?_⟩, fun hsmall => ?_, ?_, ?_⟩
  · rw [marked_printed hlines inOld_marks]
    exact hold
  · rw [marked_printed hlines inNew_marks]
    exact hnew
  · rw [marked_printed hlines unchanged_marks]
    exact hcommon hsmall
  · rw [marked_printed hblock inOld_marks]
    exact holdBlock
  · rw [marked_printed hblock inNew_marks]
    exact hnewBlock

/-- The lines `a b a` and `a b b a`. -/
def single : List Bytes := [[97], [98], [97]]

def double : List Bytes := [[97], [98], [98], [97]]

theorem printed_repeated :
    marked [32, 45] (printed (diffLines single double).1) = single ∧
      Longest (marked [32] (printed (diffLines single double).1)).length single double := by
  have hlines : ∀ line ∈ single ++ double, 10 ∉ line := by decide
  obtain ⟨⟨hold, -⟩, hcommon, -⟩ := printed_script single double hlines
  have hsingle : single.take maxLines = single := rfl
  have hdouble : double.take maxLines = double := rfl
  rw [hsingle, hdouble] at hcommon
  exact ⟨hold, hcommon (by decide)⟩

/-- The line past the last that is compared is not printed. -/
theorem longer_cut :
    marked [32, 45] (printed (diffLines (List.replicate 1201 [97]) []).1) ≠
      List.replicate 1201 [97] := by
  obtain ⟨hold, hnew, -⟩ := diffLines_spec (List.replicate 1201 ([97] : Bytes)) []
  have hlines := line_of_sides hold hnew fun line hline => by
    rw [List.take_nil, List.append_nil, List.take_replicate] at hline
    rw [List.eq_of_mem_replicate hline]
    decide
  rw [marked_printed hlines inOld_marks]
  intro hall
  have hlength := congrArg List.length (hold.symm.trans hall)
  rw [List.length_take, List.length_replicate, maxLines] at hlength
  omega

end LukePanel.Files.LineDiff
