import LukePanel.Crypto.Goroutines

/-! # Slices in any order

In whatever order the goroutines of a slice take turns, none panics, each has its segment done
after as many steps as alone, and the memory is then as if they had run one after the other. -/
namespace LukePanel.Crypto.Argon2.AnyOrder
open LukePanel.Library LukePanel.Library.Interleaving LukePanel.Library.Interleaving.Threads
  LukePanel.Crypto.Argon2.Reference LukePanel.Crypto.Argon2.Fill LukePanel.Crypto.Argon2.Goroutines

variable {S : Shape} {z : Sizes} {B B' : Array Block} {nw slicew : UInt32}
  {i : Fin z.threads.toNat} {l l' : Local}

/-! ## A goroutine alone -/

theorem word_eq {p : Nat} {b : Block} (h : B[p]? = some b) (j : Fin blockLength) :
    word B p j = some (b.get j) := by
  rw [word, h, Option.map_some]

/-- A block that a loop over its words has brought up to word `j`. -/
def Partly (before result : Block) (j : Nat) (b : Block) : Prop :=
  ∀ (k : Nat) (hk : k < blockLength), b[k] = if k < j then result[k] else before[k]

theorem Partly.zero (before result : Block) : Partly before result 0 before := fun k _ => by
  rw [if_neg (Nat.not_lt_zero k)]

theorem Partly.set {before result b : Block} {j : Fin blockLength} {x : UInt64}
    (h : Partly before result j b) (hx : x = result.get j) : Partly before result (j + 1) (b.set j x j.isLt) := by
  intro k hk
  rw [Vector.getElem_set, h k hk]
  split
  · rename_i heq
    subst heq
    rw [if_pos (Nat.lt_succ_self _), hx]
    rfl
  · grind

theorem Partly.eq {before result b : Block} {j : Nat} (h : Partly before result j b)
    (hj : j = blockLength) : b = result :=
  Vector.ext fun k hk => by rw [h k hk, if_pos (hj ▸ hk)]

theorem xor_word (in1 in2 : Block) (j : Fin blockLength) : in1.get j ^^^ in2.get j = (xor in1 in2).get j := by
  change in1[j.val] ^^^ in2[j.val] = (xor in1 in2)[j.val]
  simp only [xor, Vector.getElem_zipWith]

theorem Partly.next {out in1 in2 out' : Block} {j : Fin blockLength}
    (h : Partly out (processBlockXOR out in1 in2) j out') :
    Partly out (processBlockXOR out in1 in2) (j + 1)
      (out'.set j (out'.get j ^^^ (in1.get j ^^^ in2.get j ^^^
        (permute (xor in1 in2)).get j)) j.isLt) := by
  have hget : out'.get j = out.get j := (h j.val j.isLt).trans (if_neg (Nat.lt_irrefl _))
  refine h.set ?_
  rw [hget, xor_word in1 in2, xor_word (xor in1 in2), xor_word out]
  rfl

section Block
variable {prev newOffset : Nat} {in1 in2 out : Block} (hin1 : B[prev]? = some in1)
  (hin2 : B[newOffset]? = some in2)
include hin1 hin2

theorem step_mix_eq (j : Fin blockLength) (t : Block) :
    goroutines z nw slicew i ⟨l, .mix prev newOffset j t⟩ B =
      some (⟨l, mixed prev newOffset j (t.set j (in1.get j ^^^ in2.get j) j.isLt)⟩, B) := by
  rw [goroutines, step_mix, word_eq hin1, word_eq hin2]
  rfl

variable (nw slicew i l) in
/-- The first loop, from word `j` on. -/
theorem mix_alone {left : Nat} {j : Fin blockLength} {t : Block}
    (hleft : j.val + left + 1 = blockLength) (ht : Partly zero (xor in1 in2) j t) :
    (goroutines z nw slicew).solo i (left + 1) (⟨l, .mix prev newOffset j t⟩, B) =
      some (⟨l, .write prev newOffset firstWord (permute (xor in1 in2))⟩, B) := by
  induction left generalizing j t with
  | zero =>
    rw [solo, step_mix_eq hin1 hin2, Option.bind_some, mixed, nextWord, dif_neg (by omega),
      (ht.set (xor_word in1 in2 j)).eq hleft]
    rfl
  | succ left ih =>
    rw [solo, step_mix_eq hin1 hin2, Option.bind_some, mixed, nextWord, dif_pos (by omega)]
    exact ih (j := ⟨j + 1, by omega⟩) (by simp only; omega) (ht.set (xor_word in1 in2 j))

variable (hne1 : prev ≠ l.offset.toNat) (hne2 : newOffset ≠ l.offset.toNat)
  (hout : B[l.offset.toNat]? = some out)
include hne1 hne2 hout

theorem step_write_eq (j : Fin blockLength) (t out' : Block) :
    goroutines z nw slicew i ⟨l, .write prev newOffset j t⟩ (B.setIfInBounds l.offset.toNat out') =
      some (written l prev newOffset j t, B.setIfInBounds l.offset.toNat
        (out'.set j (out'.get j ^^^ (in1.get j ^^^ in2.get j ^^^ t.get j)) j.isLt)) := by
  have hin1' : (B.setIfInBounds l.offset.toNat out')[prev]? = some in1 := by
    rw [Array.getElem?_setIfInBounds_ne hne1.symm, hin1]
  have hin2' : (B.setIfInBounds l.offset.toNat out')[newOffset]? = some in2 := by
    rw [Array.getElem?_setIfInBounds_ne hne2.symm, hin2]
  have hout' : (B.setIfInBounds l.offset.toNat out')[l.offset.toNat]? = some out' :=
    Array.getElem?_setIfInBounds_self_of_lt (Array.getElem?_eq_some_iff.mp hout).1
  rw [goroutines, step_write, word_eq hin1', word_eq hin2', hout']
  simp only [Option.bind_eq_bind, Option.bind_some, Array.setIfInBounds_setIfInBounds]
  rfl

variable (nw slicew i l) in
/-- The last loop, from word `j` on. -/
theorem write_alone {left : Nat} {j : Fin blockLength} {out' : Block}
    (hleft : j.val + left + 1 = blockLength)
    (hpartly : Partly out (processBlockXOR out in1 in2) j out') :
    (goroutines z nw slicew).solo i (left + 1) (⟨l, .write prev newOffset j (permute (xor in1 in2))⟩,
        B.setIfInBounds l.offset.toNat out') =
      some (⟨{ l with index := l.index + 1, offset := l.offset + 1 }, .top⟩,
        B.setIfInBounds l.offset.toNat (processBlockXOR out in1 in2)) := by
  induction left generalizing j out' with
  | zero =>
    rw [solo, step_write_eq hin1 hin2 hne1 hne2 hout, Option.bind_some, written, nextWord,
      dif_neg (by omega), hpartly.next.eq hleft]
    rfl
  | succ left ih =>
    rw [solo, step_write_eq hin1 hin2 hne1 hne2 hout, Option.bind_some, written, nextWord,
      dif_pos (by omega)]
    exact ih (j := ⟨j + 1, by omega⟩) (by simp only; omega) hpartly.next

/-- Both loops. -/
theorem loops_alone :
    (goroutines z nw slicew).solo i (blockLength + blockLength)
        (⟨l, .mix prev newOffset firstWord zero⟩, B) =
      some (⟨{ l with index := l.index + 1, offset := l.offset + 1 }, .top⟩,
        B.setIfInBounds l.offset.toNat (processBlockXOR out in1 in2)) := by
  have hmix := mix_alone nw slicew i l hin1 hin2
    (rfl : firstWord.val + 127 + 1 = blockLength) (Partly.zero _ _)
  have hwrite := write_alone nw slicew i l hin1 hin2 hne1 hne2 hout
    (rfl : firstWord.val + 127 + 1 = blockLength) (Partly.zero _ _)
  have hself : B.setIfInBounds l.offset.toNat out = B := by
    obtain ⟨hsize, rfl⟩ := Array.getElem?_eq_some_iff.mp hout
    rw [Array.setIfInBounds_def, dif_pos hsize, Array.set_getElem_self]
  rw [hself] at hwrite
  rw [solo_add]
  exact Option.bind_eq_some_iff.mpr ⟨_, hmix, hwrite⟩

end Block

/-- The steps that a block takes: one at the head of the loop, and one for each word of each of the
loops of `processBlockGeneric`. -/
def blockSteps : Nat := 1 + (blockLength + blockLength)

section Lane
variable (hf : Fits z S) (hslice : slicew.toNat < 4)
  (hgood : Good S nw.toNat slicew.toNat i.val ⟨l, .top⟩)
include hf hslice hgood

/-- An iteration in one piece is one that is taken word by word with nobody in between. -/
theorem iterate_alone (hlt : l.index < z.segments)
    (h : iterate z ⟨nw, slicew, i.val.toUInt32⟩ l B = some (l', B')) :
    (goroutines z nw slicew).solo i blockSteps (⟨l, .top⟩, B) = some (⟨l', .top⟩, B') ∧
      l'.index.toNat = l.index.toNat + 1 := by
  obtain ⟨⟨word, l₁⟩, hdraw, h⟩ := Option.bind_eq_some_iff.mp h
  obtain ⟨out, hout, h⟩ := Option.bind_eq_some_iff.mp h
  obtain ⟨in1, hin1, h⟩ := Option.bind_eq_some_iff.mp h
  obtain ⟨in2, hin2, h⟩ := Option.bind_eq_some_iff.mp h
  cases h
  obtain ⟨hindex, hoffset⟩ := draw_vars hdraw
  have hwithin := within hf hslice (lane_lt hf i) hgood hlt
  have henter : enter z ⟨nw, slicew, i.val.toUInt32⟩ l B = some ⟨l₁, .mix
      (prev z ⟨nw, slicew, i.val.toUInt32⟩ l₁).toNat (indexAlpha word z.lanes z.segments z.threads nw
        slicew i.val.toUInt32 l₁.index).toNat firstWord zero⟩ := by
    rw [enter, hdraw]
    simp only [Option.bind_eq_bind, Option.bind_some, hout, hin1, hin2]
    rfl
  obtain ⟨-, hprev, hallowed⟩ := (enter_good hf (at_lane nw slicew i) hslice (lane_lt hf i) hgood hlt henter).phase
  have hplace : l₁.offset.toNat = S.place i.val (slicew.toNat * S.segment + l.index.toNat) :=
    hoffset ▸ hgood.offset_eq
  simp only [hindex] at hprev hallowed
  have hne1 : (prev z ⟨nw, slicew, i.val.toUInt32⟩ l₁).toNat ≠ l₁.offset.toNat := by
    rw [hprev, hplace]
    exact fun heq => before_ne hwithin (place_inj (before_lt hwithin) (column_lt hwithin) heq).2
  have hne2 : (indexAlpha word z.lanes z.segments z.threads nw slicew i.val.toUInt32 l₁.index).toNat ≠
      l₁.offset.toNat := by
    rw [hplace, hindex]
    exact hallowed.ne hwithin
  have henter' : (goroutines z nw slicew).solo i 1 (⟨l, .top⟩, B) = some (⟨l₁, .mix
      (prev z ⟨nw, slicew, i.val.toUInt32⟩ l₁).toNat (indexAlpha word z.lanes z.segments z.threads nw
        slicew i.val.toUInt32 l₁.index).toNat firstWord zero⟩, B) := by
    rw [solo, goroutines, step_top, if_pos hlt, henter]
    rfl
  refine ⟨?_, ?_⟩
  · rw [blockSteps, solo_add, henter', Option.bind_some]
    exact loops_alone hin1 hin2 hne1 hne2 hout
  · have hlt := hwithin.index_lt
    have hsegment := segment_lt hf
    rw [UInt32.toNat_add, hindex]
    exact Nat.mod_eq_of_lt (by simp only at hlt ⊢; omega : l.index.toNat + 1 < 2 ^ 32)

theorem iterations_alone {left : Nat} (hleft : l.index.toNat + left = S.segment)
    (h : iterations z ⟨nw, slicew, i.val.toUInt32⟩ left (l, B) = some (l', B')) :
    (goroutines z nw slicew).solo i (left * blockSteps) (⟨l, .top⟩, B) = some (⟨l', .top⟩, B') := by
  induction left generalizing l B with
  | zero =>
    cases h
    rw [Nat.zero_mul]
    rfl
  | succ left ih =>
    obtain ⟨⟨l₁, B₁⟩, hiterate, h⟩ := Option.bind_eq_some_iff.mp h
    have hlt : l.index < z.segments := by
      rw [UInt32.lt_iff_toNat_lt, hf.segments]
      omega
    obtain ⟨halone, hindex⟩ := iterate_alone hf hslice hgood hlt hiterate
    have hgood₁ : Good S nw.toNat slicew.toNat i.val ⟨l₁, .top⟩ :=
      good_of_solo (s := (⟨l, .top⟩, B)) (separate hf hslice) hgood halone
    rw [Nat.succ_mul, Nat.add_comm, solo_add, halone]
    exact ih hgood₁ (by omega) h

end Lane

/-! ## A slice -/

/-- The steps of a goroutine, when it has its segment done. -/
def segmentSteps (S : Shape) (n slice : Nat) : Nat := (S.segment - firstIndex n slice) * blockSteps

theorem stuck_of_done {s : State} (h : s.Done z) : goroutines z nw slicew i s B = none := by
  obtain ⟨l, phase⟩ := s
  obtain ⟨rfl, hend⟩ := h
  exact if_neg hend

section Slice
variable {seed : List UInt8} (hf : Fits z S) (hslice : slicew.toNat < 4)
include hf hslice

variable (h : Filled S (sourceOf S z.time seed) B nw.toNat slicew.toNat 0)
include h

theorem segment_alone (i : Fin z.threads.toNat) :
    ∃ l' B', (goroutines z nw slicew).solo i (segmentSteps S nw.toNat slicew.toNat)
        ((start z nw slicew B).locals i, B) = some (⟨l', .top⟩, B') ∧ ¬l'.index < z.segments ∧
      Sees S (sourceOf S z.time seed) B' nw.toNat slicew.toNat i.val S.segment := by
  have hlane := lane_lt hf i
  have hready := ready_begin hf (at_lane nw slicew i) hslice hlane
  have hle := firstIndex_le S nw.toNat slicew.toNat
  obtain ⟨l', B', hrun, hl', hsees, -⟩ :=
    segment_iterations hf (at_lane nw slicew i) hslice hlane (h.sees (Nat.zero_le _) hlane)
  refine ⟨l', B', ?_, ?_, hsees⟩
  · exact iterations_alone hf hslice (good_start (B := B) hf hslice i) (by rw [hready.index_eq]; omega) hrun
  · rw [UInt32.lt_iff_toNat_lt, hl'.index_eq, hf.segments]
    exact Nat.lt_irrefl _

variable {schedule : List (Fin z.threads.toNat)} {c : Pool (Fin z.threads.toNat) State (Array Block)}
  (hrun : (goroutines z nw slicew).run (start z nw slicew B) schedule = some c)
include hrun

/-- A goroutine that cannot go on is done. -/
theorem done_of_stuck {i : Fin z.threads.toNat}
    (hstuck : goroutines z nw slicew i (c.locals i) c.memory = none) : (c.locals i).Done z := by
  obtain ⟨l', B', halone, hend, -⟩ := segment_alone hf hslice h i
  obtain ⟨hlocal, -⟩ :=
    ends_as_alone (separate hf hslice) (good_start hf hslice) hrun halone (if_neg hend) hstuck
  rw [hlocal]
  exact ⟨rfl, hend⟩

/-- When all are done the slice is filled. -/
theorem filled_of_done (hdone : ∀ i, (c.locals i).Done z) :
    Filled S (sourceOf S z.time seed) c.memory nw.toNat (slicew.toNat + 1) 0 := by
  have hget (lane : Nat) (hlane : lane < S.lanes) (column : Nat) (hcolumn : column < S.columns) :
      c.memory[S.place lane column]? = some (revision S (sourceOf S z.time seed) nw.toNat lane column
        ((slicew.toNat + 1) * S.segment)) := by
    -- the goroutine of the lane leaves what it leaves alone, and nobody else writes there
    obtain ⟨i, rfl⟩ : ∃ i : Fin z.threads.toNat, i.val = lane := ⟨⟨lane, hf.threads ▸ hlane⟩, rfl⟩
    obtain ⟨l', B', halone, hend, hsees⟩ := segment_alone hf hslice h i
    obtain ⟨-, hagree⟩ := ends_as_alone (separate hf hslice) (good_start hf hslice) hrun halone
      (if_neg hend) (stuck_of_done (hdone i))
    have hsame := hagree (S.place i.val column) fun j hj =>
      Reference.not_segment hslice hcolumn (Or.inl fun heq => hj (Fin.ext heq).symm)
    rw [Nat.succ_mul]
    exact hsame.symm.trans (hsees.own column hcolumn)
  refine ⟨Nat.le_antisymm ?_ ?_, fun lane hlane column hcolumn => ?_⟩
  · -- past the last block nothing is owned, and nothing was there
    have hnone : B[S.lanes * S.columns]? = none := Array.getElem?_eq_none (Nat.le_of_eq h.size_eq)
    have hout (i : Fin z.threads.toNat) : ¬S.Segment slicew.toNat i.val (S.lanes * S.columns) := by
      rintro ⟨column, -, hcolumn, heq⟩
      have hend := slice_end S hslice
      exact absurd (place_lt (lane_lt hf i) (by omega : column < S.columns)) (heq ▸ Nat.lt_irrefl _)
    have hframe := frame_of_run (separate hf hslice) (good_start hf hslice) hrun hout
    exact Array.getElem?_eq_none_iff.mp (hframe.trans hnone)
  · have hpos := S.lanes_pos
    have htwo := S.two_le
    have hcolumns : 0 < S.columns := by unfold Shape.columns; omega
    have hlast := hget (S.lanes - 1) (by omega) (S.columns - 1) (by omega)
    have hlt := (Array.getElem?_eq_some_iff.mp hlast).1
    have hmul : (S.lanes - 1) * S.columns + S.columns = S.lanes * S.columns := by
      rw [← Nat.succ_mul, Nat.succ_eq_add_one, Nat.sub_add_cancel hpos]
    unfold Shape.place at hlt
    omega
  · rw [if_neg (Nat.not_lt_zero _)]
    exact hget lane hlane column hcolumn

end Slice

/-! ## The whole memory -/

section Fill
variable {seed : List UInt8} (hf : Fits z S)
include hf

theorem SliceRuns.filled {n slice : Nat} (hn : n < z.time.toNat) (hslice : slice < syncPoints.toNat)
    (h : Filled S (sourceOf S z.time seed) B n slice 0)
    (hruns : SliceRuns z n.toUInt32 slice.toUInt32 B B') :
    Filled S (sourceOf S z.time seed) B' n (slice + 1) 0 := by
  obtain ⟨schedule, c, hrun, hdone, rfl⟩ := hruns
  have hfilled : Filled S (sourceOf S z.time seed) c.memory n.toUInt32.toNat
      (slice.toUInt32.toNat + 1) 0 :=
    filled_of_done hf (by rw [toNat_counter hslice]; exact hslice)
      (by rw [toNat_counter hn, toNat_counter hslice]; exact h) hrun hdone
  rwa [toNat_counter hn, toNat_counter hslice] at hfilled

theorem sliceRuns_exists {n slice : Nat} (hn : n < z.time.toNat) (hslice : slice < syncPoints.toNat)
    (h : Filled S (sourceOf S z.time seed) B n slice 0) :
    ∃ B', SliceRuns z n.toUInt32 slice.toUInt32 B B' := by
  have hlt : slice.toUInt32.toNat < 4 := by
    rw [toNat_counter hslice]
    exact hslice
  have h' : Filled S (sourceOf S z.time seed) B n.toUInt32.toNat slice.toUInt32.toNat 0 := by
    rw [toNat_counter hn, toNat_counter hslice]
    exact h
  obtain ⟨schedule, c, hrun, hstuck⟩ := exists_run_to_end (c := start z n.toUInt32 slice.toUInt32 B)
    (separate hf hlt) (good_start hf hlt) fun i => by
      obtain ⟨l', B', halone, hend, -⟩ := segment_alone hf hlt h' i
      exact ⟨_, _, _, halone, if_neg hend⟩
  exact ⟨c.memory, schedule, c, hrun, fun i => done_of_stuck hf hlt h' hrun (hstuck i), rfl⟩

theorem not_slicePanics {n slice : Nat} (hn : n < z.time.toNat) (hslice : slice < syncPoints.toNat)
    (h : Filled S (sourceOf S z.time seed) B n slice 0) :
    ¬SlicePanics z n.toUInt32 slice.toUInt32 B := by
  rintro ⟨schedule, c, i, hrun, hstuck, hdone⟩
  have hlt : slice.toUInt32.toNat < 4 := by
    rw [toNat_counter hslice]
    exact hslice
  have h' : Filled S (sourceOf S z.time seed) B n.toUInt32.toNat slice.toUInt32.toNat 0 := by
    rw [toNat_counter hn, toNat_counter hslice]
    exact h
  exact hdone (done_of_stuck hf hlt h' hrun hstuck)

theorem PassRuns.filled {n : Nat} (hn : n < z.time.toNat)
    (h : Filled S (sourceOf S z.time seed) B n 0 0) (hruns : PassRuns z n.toUInt32 B B') :
    Filled S (sourceOf S z.time seed) B' (n + 1) 0 0 :=
  Filled.pass <| hruns.invariant (P := fun slice B => Filled S (sourceOf S z.time seed) B n slice 0) h
    fun _ hslice _ _ hfilled hslices => SliceRuns.filled hf hn hslice hfilled hslices

theorem passRuns_exists {n : Nat} (hn : n < z.time.toNat)
    (h : Filled S (sourceOf S z.time seed) B n 0 0) : ∃ B', PassRuns z n.toUInt32 B B' := by
  obtain ⟨B', hruns, -⟩ := CountedLoops.InTurn.exists
    (R := fun slice => SliceRuns z n.toUInt32 slice.toUInt32)
    (P := fun slice B => Filled S (sourceOf S z.time seed) B n slice 0) h
    fun slice (hslice : slice < syncPoints.toNat) B hfilled => by
      obtain ⟨B', hruns⟩ := sliceRuns_exists hf hn hslice hfilled
      exact ⟨B', hruns, SliceRuns.filled hf hn hslice hfilled hruns⟩
  exact ⟨B', hruns⟩

variable (h : Filled S (sourceOf S z.time seed) B 0 0 0)
include h

/-- Every order leaves the memory that the goroutines leave one after the other. -/
theorem fillRuns_iff : FillRuns z B B' ↔ processBlocks z B = some B' := by
  obtain ⟨B₁, hrun, hfilled⟩ := processBlocks_eq hf h
  have hsound {B₂ : Array Block} (hruns : FillRuns z B B₂) : B₂ = B₁ :=
    Filled.unique (hruns.invariant (P := fun n B => Filled S (sourceOf S z.time seed) B n 0 0) h
      fun _ hn _ _ hfilled hpass => PassRuns.filled hf hn hfilled hpass) hfilled
  rw [hrun, Option.some_inj]
  refine ⟨fun hruns => (hsound hruns).symm, ?_⟩
  rintro rfl
  obtain ⟨B₂, hruns, -⟩ := CountedLoops.InTurn.exists (R := fun n => PassRuns z n.toUInt32)
    (P := fun n B => Filled S (sourceOf S z.time seed) B n 0 0) h
    fun n (hn : n < z.time.toNat) B hfilled => by
      obtain ⟨B', hruns⟩ := passRuns_exists hf hn hfilled
      exact ⟨B', hruns, PassRuns.filled hf hn hfilled hruns⟩
  exact hsound hruns ▸ hruns

theorem not_fillPanics : ¬FillPanics z B := by
  rintro ⟨n, hn, slice, hslice, B₁, B₂, hpasses, hslices, hpanics⟩
  have hpass : Filled S (sourceOf S z.time seed) B₁ n 0 0 :=
    hpasses.invariant (P := fun n B => Filled S (sourceOf S z.time seed) B n 0 0) h
      fun _ hlt _ _ hfilled hpass => PassRuns.filled hf (Nat.lt_trans hlt hn) hfilled hpass
  have hslice' : Filled S (sourceOf S z.time seed) B₂ n slice 0 :=
    hslices.invariant (P := fun slice B => Filled S (sourceOf S z.time seed) B n slice 0) hpass
      fun _ hlt _ _ hfilled hruns =>
        SliceRuns.filled hf hn (Nat.lt_trans hlt hslice) hfilled hruns
  exact not_slicePanics hf hn hslice hslice' hpanics

end Fill

/-! ## Derived keys -/

section Key
variable (password salt : List UInt8) (time memory : UInt32) (threads : UInt8) (keyLen : UInt32)

theorem begun_eq (hthreads : 0 < threads.toNat) :
    ∃ B, begun password salt time memory threads keyLen = some B ∧
      Filled (shapeOf memory threads hthreads) (sourceOf (shapeOf memory threads hthreads) time
        (seed password salt [] [] time memory threads.toUInt32 keyLen)) B 0 0 0 := by
  have hf := fits_shapeOf memory time threads hthreads
  obtain ⟨B, hinit, hfilled⟩ := Tag.initBlocks_eq
    (Tag.length_seed password salt [] [] time memory threads.toUInt32 keyLen) hf
  refine ⟨B, ?_, hfilled⟩
  rw [begun, Tag.initHash_eq]
  exact hinit

/-- The derivation, with the goroutines one after the other. -/
theorem idKey_eq_begun (htime : ¬time < 1) (hthreads : ¬threads < 1) :
    idKey password salt time memory threads keyLen =
      (begun password salt time memory threads keyLen).bind fun B =>
        (processBlocks (sizes time memory threads) B).bind fun B =>
          extractKey B (roundMemory memory threads.toUInt32) threads.toUInt32 keyLen := by
  rw [idKey, if_neg htime, if_neg hthreads, deriveKey, begun]
  simp only [Option.bind_eq_bind, Option.bind_assoc]
  rfl

/-- `IDKey` ends with the same key in whatever order the goroutines take turns. -/
theorem derives_iff (key : List UInt8) : Derives password salt time memory threads keyLen key ↔
    idKey password salt time memory threads keyLen = some key := by
  by_cases htime : time < 1
  · exact iff_of_false (fun h => h.1 htime) (by rw [idKey, if_pos htime]; exact (Option.some_ne_none _).symm)
  by_cases hthreads : threads < 1
  · exact iff_of_false (fun h => h.2.1 hthreads)
      (by rw [idKey, if_neg htime, if_pos hthreads]
          exact (Option.some_ne_none _).symm)
  have hpos : 0 < threads.toNat := Nat.pos_of_ne_zero fun hzero =>
    hthreads (by rw [UInt8.lt_iff_toNat_lt, hzero]; exact Nat.one_pos)
  obtain ⟨B, hbegun, hfilled⟩ := begun_eq password salt time memory threads keyLen hpos
  have hf := fits_shapeOf memory time threads hpos
  rw [idKey_eq_begun _ _ _ _ _ _ htime hthreads]
  simp only [Derives, htime, hthreads, not_false_eq_true, true_and, hbegun, Option.bind_some,
    Option.some.injEq, Option.bind_eq_some_iff]
  constructor
  · rintro ⟨_, B', rfl, hruns, hkey⟩
    exact ⟨B', (fillRuns_iff hf hfilled).mp hruns, hkey⟩
  · rintro ⟨B', hrun, hkey⟩
    exact ⟨B, B', rfl, (fillRuns_iff hf hfilled).mpr hrun, hkey⟩

/-- In no order does it panic but for the parameters that it checks and for an empty key. -/
theorem panics_iff : Panics password salt time memory threads keyLen ↔
    time.toNat = 0 ∨ threads.toNat = 0 ∨ keyLen.toNat = 0 := by
  have htime : time < 1 ↔ time.toNat = 0 := by
    rw [UInt32.lt_iff_toNat_lt]
    exact Nat.lt_one_iff
  have hthreads : threads < 1 ↔ threads.toNat = 0 := by
    rw [UInt8.lt_iff_toNat_lt]
    exact Nat.lt_one_iff
  rw [Panics, htime, hthreads]
  by_cases ht : time.toNat = 0
  · simp only [ht, true_or]
  by_cases hp : threads.toNat = 0
  · simp only [hp, true_or, or_true]
  have hpos := Nat.pos_of_ne_zero hp
  obtain ⟨B, hbegun, hfilled⟩ := begun_eq password salt time memory threads keyLen hpos
  have hf := fits_shapeOf memory time threads hpos
  obtain ⟨B', hrun, -⟩ := processBlocks_eq hf hfilled
  have hkey := Tag.idKey_eq password salt time memory threads keyLen
  rw [idKey_eq_begun _ _ _ _ _ _ (mt htime.mp ht) (mt hthreads.mp hp), hbegun, Option.bind_some,
    sizes, hrun, Option.bind_some] at hkey
  have hnone : extractKey B' (roundMemory memory threads.toUInt32) threads.toUInt32 keyLen = none ↔
      keyLen.toNat = 0 := by
    rw [hkey]
    split
    · rename_i hall
      exact iff_of_false (Option.some_ne_none _) (Nat.ne_of_gt hall.2.2)
    · rename_i hall
      exact iff_of_true rfl (by omega)
  simp only [ht, hp, hbegun, false_or, reduceCtorEq, Option.some.injEq]
  rw [← hnone]
  constructor
  · rintro ⟨_, rfl, hpanics | ⟨B₂, hruns, hextract⟩⟩
    · exact absurd hpanics (not_fillPanics hf hfilled)
    · have hsame := (fillRuns_iff hf hfilled).mp hruns
      rw [hrun, Option.some_inj] at hsame
      exact hsame ▸ hextract
  · exact fun hextract => ⟨B, rfl, Or.inr ⟨B', (fillRuns_iff hf hfilled).mpr hrun, hextract⟩⟩

end Key

end LukePanel.Crypto.Argon2.AnyOrder
