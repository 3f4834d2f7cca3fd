import Mathlib.Data.List.Basic

/-! # Reading lines from the end of a file

A file is read block by block from its end. What stands before the first separator of a block
belongs to a line that starts further up; it is carried over to the next block. The lines come
out last one first, as many as a limit allows, and a line of which too much is carried over ends
the reading. -/
namespace LukePanel.Library.BackwardLines

variable {α β : Type*}

/-- Takes in lines until the limit is reached; a line that does not parse is passed over. -/
def collect (parse : List α → Option β) (limit : ℕ) (out : List β) : List (List α) → List β
  | [] => out
  | line :: rest =>
    if limit ≤ out.length then out
    else collect parse limit (out ++ (parse line).toList) rest

theorem collect_eq (parse : List α → Option β) {limit : ℕ} (lines : List (List α)) (out : List β)
    (h : out.length ≤ limit) :
    collect parse limit out lines = out ++ (lines.filterMap parse).take (limit - out.length) := by
  induction lines generalizing out with
  | nil => rw [collect, List.filterMap_nil, List.take_nil, List.append_nil]
  | cons line rest ih =>
    rw [collect]
    split
    · rename_i hfull
      rw [Nat.sub_eq_zero_of_le hfull, List.take_zero, List.append_nil]
    · rename_i hroom
      cases hline : parse line with
      | none =>
        rw [Option.toList_none, List.append_nil, ih out h, List.filterMap_cons_none hline]
      | some e =>
        have hmore : (out ++ [e]).length = out.length + 1 := List.length_append
        have htake : limit - out.length = limit - (out.length + 1) + 1 := by omega
        rw [Option.toList_some, ih (out ++ [e]) (by omega), hmore, List.filterMap_cons_some hline,
          htake, List.take_succ_cons, List.append_assoc, List.singleton_append]

/-- What is taken in goes behind what is there. -/
theorem collect_take (parse : List α → Option β) (limit : ℕ) (lines : List (List α))
    (done : List β) :
    collect parse limit (done.take limit) lines = (done ++ lines.filterMap parse).take limit := by
  have hroom : limit - (done.take limit).length = limit - done.length := by
    rw [List.length_take]
    omega
  rw [collect_eq parse lines _ (List.length_take_le _ _), hroom, List.take_append]

variable [DecidableEq α]

/-- What stands before the first separator. -/
def firstLine (sep : α) (data : List α) : List α := (data.splitOn sep).headD []

/-- The lines of the block before `position`, the last one completed by what is carried over. -/
def blockLines (sep : α) (block : ℕ) (data : List α) (position : ℕ) (carry : List α) :
    List (List α) :=
  ((data.drop (position - block)).take (position - (position - block)) ++ carry).splitOn sep

def readBlocks (sep : α) (parse : List α → Option β) (block carryMax limit : ℕ) (data : List α) :
    ℕ → ℕ → List α → List β → Option (List β)
  | 0, _, _, out => some out
  | fuel + 1, position, carry, out =>
    if position = 0 ∨ limit ≤ out.length then some out
    else
      let start := position - block
      let lines := blockLines sep block data position carry
      if 0 < start then
        if carryMax < (lines.headD []).length then none
        else readBlocks sep parse block carryMax limit data fuel start (lines.headD [])
          (collect parse limit out lines.tail.reverse)
      else readBlocks sep parse block carryMax limit data fuel start []
        (collect parse limit out lines.reverse)

/-- Every block but the last takes at least one element, so the length is fuel enough. -/
def readTail (sep : α) (parse : List α → Option β) (block carryMax limit : ℕ) (data : List α) :
    Option (List β) :=
  readBlocks sep parse block carryMax limit data data.length data.length [] []

/-- No line is so long that more than `carryMax` of it is carried over from one block to the
next. -/
def Carries (sep : α) (block carryMax : ℕ) (data : List α) (position : ℕ) : Prop :=
  ∀ k, 0 < position - (k + 1) * block →
    (firstLine sep (data.drop (position - (k + 1) * block))).length ≤ carryMax

/-! ## Blocks and lines -/

variable {sep : α} {parse : List α → Option β} {block carryMax limit : ℕ}

theorem splitOn_append (sep : α) (x y : List α) :
    (x ++ y).splitOn sep = (x ++ firstLine sep y).splitOn sep ++ (y.splitOn sep).tail := by
  by_cases hmem : sep ∈ y
  · obtain ⟨before, after, hy, hbefore⟩ := List.eq_append_cons_of_mem hmem
    have hlines : y.splitOn sep = before :: after.splitOn sep := by
      rw [hy, List.splitOn_append_cons_self_of_not_mem hbefore]
    unfold firstLine
    rw [hlines, List.headD_cons, List.tail_cons, hy, ← List.append_assoc,
      List.splitOn_append_cons_self]
  · have hlines : y.splitOn sep = [y] := List.splitOn_eq_singleton hmem
    unfold firstLine
    rw [hlines, List.headD_cons, List.tail_cons, List.append_nil]

theorem firstLine_cons_tail (sep : α) (data : List α) :
    data.splitOn sep = firstLine sep data :: (data.splitOn sep).tail := by
  cases h : data.splitOn sep with
  | nil => exact absurd h (List.splitOn_ne_nil sep data)
  | cons line rest => rw [firstLine, h, List.headD_cons, List.tail_cons]

/-- What has come out when `position` is reached. -/
def readFrom (sep : α) (parse : List α → Option β) (data : List α) (position : ℕ) : List β :=
  (((data.drop position).splitOn sep).tail.filterMap parse).reverse

/-- All lines that parse, the last one first. -/
def parsed (sep : α) (parse : List α → Option β) (data : List α) : List β :=
  ((data.splitOn sep).filterMap parse).reverse

/-- The lines from a block on are those the block completes and those after it. -/
theorem splitOn_block (sep : α) (block : ℕ) (data : List α) (position : ℕ) :
    (data.drop (position - block)).splitOn sep =
      blockLines sep block data position (firstLine sep (data.drop position)) ++
        ((data.drop position).splitOn sep).tail := by
  unfold blockLines
  rw [← splitOn_append]
  have hdrop : data.drop position =
      (data.drop (position - block)).drop (position - (position - block)) := by
    rw [List.drop_drop]
    congr 1
    omega
  rw [hdrop, List.take_append_drop]

theorem headD_blockLines (sep : α) (block : ℕ) (data : List α) (position : ℕ) :
    (blockLines sep block data position (firstLine sep (data.drop position))).headD [] =
      firstLine sep (data.drop (position - block)) := by
  have hlines := splitOn_block sep block data position
  have hsome : blockLines sep block data position (firstLine sep (data.drop position)) ≠ [] :=
    List.splitOn_ne_nil _ _
  obtain ⟨line, rest, hcons⟩ := List.exists_cons_of_ne_nil hsome
  rw [firstLine.eq_1 sep (data.drop (position - block)), hlines, hcons]
  rfl

/-- What comes out next are the lines of the block that are complete. -/
theorem readFrom_block (sep : α) (parse : List α → Option β) (block : ℕ) (data : List α)
    (position : ℕ) :
    readFrom sep parse data (position - block) = readFrom sep parse data position ++
      (blockLines sep block data position
        (firstLine sep (data.drop position))).tail.reverse.filterMap parse := by
  have hsome : blockLines sep block data position (firstLine sep (data.drop position)) ≠ [] :=
    List.splitOn_ne_nil _ _
  unfold readFrom
  rw [splitOn_block, List.tail_append_of_ne_nil hsome, List.filterMap_append, List.reverse_append,
    List.filterMap_reverse]

/-- At the start of the file the first line comes out too. -/
theorem parsed_block (parse : List α → Option β) {sep : α} {block position : ℕ}
    (h : position ≤ block) (data : List α) :
    parsed sep parse data = readFrom sep parse data position ++
      (blockLines sep block data position (firstLine sep (data.drop position))).reverse.filterMap
        parse := by
  have hlines := splitOn_block sep block data position
  rw [Nat.sub_eq_zero_of_le h, List.drop_zero] at hlines
  unfold parsed readFrom
  rw [hlines, List.filterMap_append, List.reverse_append, List.filterMap_reverse]

theorem readFrom_part (sep : α) (parse : List α → Option β) (data : List α) (position : ℕ) :
    readFrom sep parse data position <+: parsed sep parse data :=
  ⟨_, (parsed_block parse (Nat.le_refl position) data).symm⟩

theorem carries_block {block carryMax : ℕ} {data : List α} {position : ℕ}
    (hstart : 0 < position - block) :
    Carries sep block carryMax data position ↔
      (firstLine sep (data.drop (position - block))).length ≤ carryMax ∧
        Carries sep block carryMax data (position - block) := by
  have hnext : ∀ k, position - block - (k + 1) * block = position - (k + 1 + 1) * block := by
    intro k
    rw [Nat.add_mul (k + 1) 1, Nat.one_mul]
    omega
  constructor
  · intro h
    refine ⟨?_, fun k hk => ?_⟩
    · have h0 := h 0
      rw [Nat.zero_add, Nat.one_mul] at h0
      exact h0 hstart
    · rw [hnext] at hk ⊢
      exact h (k + 1) hk
  · rintro ⟨hline, h⟩ k hk
    cases k with
    | zero =>
      rw [Nat.zero_add, Nat.one_mul]
      exact hline
    | succ k =>
      rw [← hnext] at hk ⊢
      exact h k hk

/-- One block carries on where the last one stopped. -/
theorem readBlocks_eq (parse : List α → Option β) (limit : ℕ) (hblock : 0 < block) (data : List α)
    (fuel : ℕ) {position : ℕ} (hfuel : position ≤ fuel) (hpos : 0 < position)
    (hcarries : Carries sep block carryMax data position) :
    readBlocks sep parse block carryMax limit data fuel position
      (firstLine sep (data.drop position)) ((readFrom sep parse data position).take limit) =
        some ((parsed sep parse data).take limit) := by
  induction fuel generalizing position with
  | zero => omega
  | succ fuel ih =>
    rw [readBlocks]
    by_cases hfull : limit ≤ (readFrom sep parse data position).length
    · obtain ⟨more, hmore⟩ := readFrom_part sep parse data position
      rw [if_pos (Or.inr (by rw [List.length_take]; omega)), ← hmore,
        List.take_append_of_le_length hfull]
    · have hcond : ¬ (position = 0 ∨
          limit ≤ ((readFrom sep parse data position).take limit).length) := by
        rw [List.length_take]
        omega
      rw [if_neg hcond]
      by_cases hstart : 0 < position - block
      · -- the first line of the block is carried over
        obtain ⟨hline, hrest⟩ := (carries_block hstart).mp hcarries
        simp only [headD_blockLines]
        rw [if_pos hstart, if_neg (by omega), collect_take, ← readFrom_block]
        exact ih (by omega) hstart hrest
      · -- the block reaches the start of the file
        simp only
        rw [if_neg hstart, collect_take, ← parsed_block parse (by omega)]
        cases fuel with
        | zero => rfl
        | succ fuel => rw [readBlocks, if_pos (Or.inl (by omega))]

/-- A part that is too long to be carried over ends the reading, if the limit is not reached
before. -/
theorem readBlocks_none (parse : List α → Option β) (hblock : 0 < block) {data : List α}
    (hlimit : (parsed sep parse data).length < limit) (fuel : ℕ) {position : ℕ}
    (hfuel : position ≤ fuel) (hnot : ¬ Carries sep block carryMax data position) :
    readBlocks sep parse block carryMax limit data fuel position
      (firstLine sep (data.drop position)) ((readFrom sep parse data position).take limit) =
        none := by
  induction fuel generalizing position with
  | zero => exact absurd (fun k hk => absurd hk (by omega)) hnot
  | succ fuel ih =>
    have hpos : 0 < position := by
      by_contra hzero
      exact hnot fun k hk => absurd hk (by omega)
    have hout := (readFrom_part sep parse data position).length_le
    have hcond : ¬ (position = 0 ∨
        limit ≤ ((readFrom sep parse data position).take limit).length) := by
      rw [List.length_take]
      omega
    rw [readBlocks, if_neg hcond]
    have hstart : 0 < position - block := by
      by_contra hlast
      refine hnot fun k hk => absurd hk ?_
      have : block ≤ (k + 1) * block := Nat.le_mul_of_pos_left block (Nat.succ_pos k)
      omega
    rw [carries_block hstart] at hnot
    simp only [headD_blockLines]
    rw [if_pos hstart]
    split
    · rfl
    · rename_i hshort
      rw [collect_take, ← readFrom_block]
      exact ih (by omega) fun h => hnot ⟨by omega, h⟩

/-- At the end of the file nothing is carried over and nothing has come out. -/
theorem readFrom_length (sep : α) (parse : List α → Option β) (data : List α) :
    firstLine sep (data.drop data.length) = [] ∧ readFrom sep parse data data.length = [] := by
  rw [List.drop_length]
  unfold readFrom
  rw [List.drop_length]
  exact ⟨rfl, rfl⟩

/-- **The file is read from its end**, the last line first, as far as the limit allows. -/
theorem readTail_take (parse : List α → Option β) (limit : ℕ) (hblock : 0 < block)
    {data : List α} (hnil : parse [] = none)
    (hcarries : Carries sep block carryMax data data.length) :
    readTail sep parse block carryMax limit data = some ((parsed sep parse data).take limit) := by
  by_cases hempty : data = []
  · subst hempty
    have hparsed : parsed sep parse ([] : List α) = [] := by
      unfold parsed
      rw [List.splitOn_nil, List.filterMap_cons_none hnil, List.filterMap_nil, List.reverse_nil]
    rw [hparsed, List.take_nil]
    rfl
  · have hblocks := readBlocks_eq parse limit hblock data data.length (Nat.le_refl _)
      (List.length_pos_iff.mpr hempty) hcarries
    rw [(readFrom_length sep parse data).1, (readFrom_length sep parse data).2,
      List.take_nil] at hblocks
    exact hblocks

theorem readTail_none (parse : List α → Option β) (hblock : 0 < block) {data : List α}
    (hlimit : (parsed sep parse data).length < limit)
    (hnot : ¬ Carries sep block carryMax data data.length) :
    readTail sep parse block carryMax limit data = none := by
  have hblocks := readBlocks_none parse hblock hlimit data.length (Nat.le_refl _) hnot
  rw [(readFrom_length sep parse data).1, (readFrom_length sep parse data).2,
    List.take_nil] at hblocks
  exact hblocks

theorem exists_line_firstLine (sep : α) (data : List α) (k : ℕ) :
    ∃ line ∈ data.splitOn sep, (firstLine sep (data.drop k)).length ≤ line.length := by
  induction data generalizing k with
  | nil => exact ⟨[], by rw [List.splitOn_nil]; exact List.mem_singleton.mpr rfl, by simp [firstLine]⟩
  | cons a rest ih =>
    cases k with
    | zero =>
      refine ⟨firstLine sep (a :: rest), ?_, Nat.le_refl _⟩
      rw [firstLine_cons_tail]
      exact List.mem_cons_self
    | succ k =>
      obtain ⟨line, hline, hle⟩ := ih k
      rw [List.drop_succ_cons, List.splitOn_cons_eq_if_modifyHead]
      split
      · exact ⟨line, List.mem_cons_of_mem _ hline, hle⟩
      · rw [firstLine_cons_tail] at hline ⊢
        rw [List.modifyHead_cons]
        rcases List.mem_cons.mp hline with rfl | htail
        · exact ⟨_, List.mem_cons_self, by rw [List.length_cons]; omega⟩
        · exact ⟨line, List.mem_cons_of_mem _ htail, hle⟩

/-- A part of a line that is carried over is no longer than the line. -/
theorem carries_of_lines {data : List α} (h : ∀ line ∈ data.splitOn sep, line.length ≤ carryMax)
    (position : ℕ) : Carries sep block carryMax data position := by
  intro k _
  obtain ⟨line, hline, hle⟩ := exists_line_firstLine sep data (position - (k + 1) * block)
  exact Nat.le_trans hle (h line hline)

end LukePanel.Library.BackwardLines
