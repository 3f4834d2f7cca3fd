import LukePanel.Crypto.Argon2Reference
import LukePanel.Library.CountedLoops

/-! # The memory is filled with the matrix

A segment is filled with the blocks of the reference, whatever the other goroutines of its slice
have done by then; from that, slice by slice and pass by pass, the whole memory. -/
namespace LukePanel.Crypto.Argon2.Fill
open LukePanel.Library LukePanel.Crypto.Blake2b LukePanel.Crypto.Blake2b.Reference
  LukePanel.Crypto.VariableHash LukePanel.Crypto.Argon2.Reference

variable {S : Shape} {z : Sizes} {src : Source} {B : Array Block} {n slice lane index column : Nat}

/-! ## What stands in the memory -/

/-- What pass `n` finds where it has not been yet. -/
def prior (S : Shape) (src : Source) (n lane column : Nat) : Block :=
  if n = 0 then if column < 2 then src.first lane column else zero
  else cell S src (n - 1) lane column

/-- A block in pass `n`, when the pass has come up to column `bound` of its lane. -/
def revision (S : Shape) (src : Source) (n lane column bound : Nat) : Block :=
  if column < bound then cell S src n lane column else prior S src n lane column

theorem cell_first (h : column < 2) : cell S src 0 lane column = src.first lane column := by
  rw [cell, dif_pos ⟨rfl, h⟩]

/-- The column before the block of a segment, round the end of the lane. -/
def before (S : Shape) (slice index : Nat) : Nat :=
  if slice = 0 ∧ index = 0 then S.columns - 1 else slice * S.segment + index - 1

/-- The word that chooses the reference. -/
def random (S : Shape) (src : Source) (n slice lane index : Nat) : UInt64 :=
  if n = 0 ∧ slice < 2 then src.address slice lane index
  else (revision S src n lane (before S slice index) (slice * S.segment + index)).get
    ⟨0, zero_lt_blockLength⟩

/-- How far the pass has come in a lane when the block of a segment in `lane` is computed. -/
def reached (S : Shape) (slice lane index lane' : Nat) : Nat :=
  if lane' = lane then slice * S.segment + index else slice * S.segment

theorem two_le_column (h : S.Within n slice lane index) (hn : n = 0) :
    2 ≤ slice * S.segment + index := by
  have htwo := S.two_le
  rcases Nat.eq_zero_or_pos slice with hzero | hpos
  · have := h.begun hn hzero
    omega
  · have := Nat.le_mul_of_pos_left S.segment hpos
    omega

theorem column_lt (h : S.Within n slice lane index) : slice * S.segment + index < S.columns := by
  have hend := slice_end S h.slice_lt
  have hindex := h.index_lt
  rw [Nat.succ_mul] at hend
  omega

/-- A reference of the first pass has been computed. -/
theorem reference_first (h : S.Within n slice lane index) (hn : n = 0) (word : Nat) :
    S.refColumn n slice lane index word <
      reached S slice lane index (S.refLane n slice lane word) := by
  unfold reached
  split
  · rename_i heq
    have := (refColumn_of_eq h heq).2.1
    omega
  · rename_i hne
    have := (refColumn_of_ne h hne).2
    omega

/-- A block by the revisions of the blocks that it is computed from. -/
theorem cell_eq (h : S.Within n slice lane index) :
    cell S src n lane (slice * S.segment + index) =
      let word := (random S src n slice lane index).toNat
      let lane' := S.refLane n slice lane word
      xor (revision S src n lane (slice * S.segment + index) (slice * S.segment + index))
        (processBlock (revision S src n lane (before S slice index) (slice * S.segment + index))
          (revision S src n lane' (S.refColumn n slice lane index word)
            (reached S slice lane index lane'))) := by
  have htwo := S.two_le
  have hfirst : ¬(n = 0 ∧ slice * S.segment + index < 2) := fun hlt => by
    have := two_le_column h hlt.1
    omega
  have hslice : (slice * S.segment + index) / S.segment = slice := by
    rw [Nat.mul_comm, Nat.mul_add_div (by omega), Nat.div_eq_of_lt h.index_lt, Nat.add_zero]
  have hindex : (slice * S.segment + index) % S.segment = index := by
    rw [Nat.mul_comm, Nat.mul_add_mod, Nat.mod_eq_of_lt h.index_lt]
  have hold : revision S src n lane (slice * S.segment + index) (slice * S.segment + index) =
      if n = 0 then zero else cell S src (n - 1) lane (slice * S.segment + index) := by
    rw [revision, if_neg (Nat.lt_irrefl _), prior]
    split
    · rename_i hn
      rw [if_neg fun hlt => hfirst ⟨hn, hlt⟩]
    · rfl
  have hprevious : revision S src n lane (before S slice index) (slice * S.segment + index) =
      if slice * S.segment + index = 0 then cell S src (n - 1) lane (S.columns - 1)
      else cell S src n lane (slice * S.segment + index - 1) := by
    unfold before
    split
    · rename_i hzero
      have hn : n ≠ 0 := fun hn => hfirst ⟨hn, by rw [hzero.1, hzero.2]; omega⟩
      rw [hzero.1, hzero.2, if_pos (by omega), revision, if_neg (by omega), prior, if_neg hn]
    · rename_i hpos
      have hne : slice * S.segment + index ≠ 0 := by
        have : slice ≠ 0 → 0 < slice * S.segment := fun h =>
          Nat.mul_pos (Nat.pos_of_ne_zero h) (by omega)
        omega
      rw [if_neg hne, revision, if_pos (by omega)]
  have hreference (word : Nat) :
      revision S src n (S.refLane n slice lane word) (S.refColumn n slice lane index word)
          (reached S slice lane index (S.refLane n slice lane word)) =
        if S.Earlier (S.refLane n slice lane word) (S.refColumn n slice lane index word) lane
            (slice * S.segment + index) then
          cell S src n (S.refLane n slice lane word) (S.refColumn n slice lane index word)
        else if n = 0 then zero
        else cell S src (n - 1) (S.refLane n slice lane word) (S.refColumn n slice lane index word) := by
    have hearlier : S.Earlier (S.refLane n slice lane word) (S.refColumn n slice lane index word) lane
        (slice * S.segment + index) ↔ S.refColumn n slice lane index word <
          reached S slice lane index (S.refLane n slice lane word) := by
      unfold Shape.Earlier reached
      rw [hslice]
      split <;> omega
    have hfirst := reference_first h
    unfold revision prior
    grind
  rw [cell, dif_neg hfirst]
  simp only [hslice, hindex, hold, hprevious, hreference, random, dite_eq_ite]

/-- What a goroutine can rely on at block `index` of its segment: its own lane, and of the other
lanes what lies outside the slice. -/
structure Sees (S : Shape) (src : Source) (B : Array Block) (n slice lane index : Nat) : Prop where
  size_eq : B.size = S.lanes * S.columns
  own : ∀ column < S.columns,
    B[S.place lane column]? = some (revision S src n lane column (slice * S.segment + index))
  others : ∀ lane' < S.lanes, lane' ≠ lane → ∀ column < S.columns,
    column < slice * S.segment ∨ (slice + 1) * S.segment ≤ column →
    B[S.place lane' column]? = some (revision S src n lane' column (slice * S.segment))

/-! ## The local variables of a goroutine -/

/-- The place of a segment, in numbers. -/
structure At (here : Place) (n slice lane : Nat) : Prop where
  n_eq : here.n.toNat = n
  slice_eq : here.slice.toNat = slice
  lane_eq : here.lane.toNat = lane

/-- The local variables at block `index` of the segment. -/
structure Ready (S : Shape) (time : UInt32) (l : Local) (n slice lane index : Nat) : Prop where
  index_eq : l.index.toNat = index
  offset_eq : l.offset.toNat = S.place lane (slice * S.segment + index)
  counted : n = 0 → slice < 2 → l.input = counterBlock S time slice lane ((index + 127) / 128)
  addresses_eq : n = 0 → slice < 2 → index % 128 ≠ 0 →
    l.addresses = addressBlock S time slice lane ((index + 127) / 128)

theorem counterBlock_succ (S : Shape) (time : UInt32) (slice lane count : Nat) :
    (counterBlock S time slice lane count).set 6 ((counterBlock S time slice lane count)[6] + 1) =
      counterBlock S time slice lane (count + 1) := by
  refine Vector.ext fun i hi => ?_
  simp only [counterBlock, Vector.getElem_set, Vector.getElem_ofFn]
  rcases i with _ | _ | _ | _ | _ | _ | _ | i
  case succ.succ.succ.succ.succ.succ.zero => exact (UInt64.ofNat_add count 1).symm
  all_goals rfl

/-- A batch of addresses is renewed from the next counter. -/
theorem nextAddresses_eq {l : Local} {time : UInt32} {count : Nat}
    (h : l.input = counterBlock S time slice lane count) :
    nextAddresses l = { l with
      input := counterBlock S time slice lane (count + 1)
      addresses := addressBlock S time slice lane (count + 1) } := by
  simp only [nextAddresses, addressBlock, h, counterBlock_succ]

theorem independent_iff {here : Place} (hat : At here n slice lane) :
    here.independent ↔ n = 0 ∧ slice < 2 := by
  have hn : here.n = 0 ↔ n = 0 := by rw [← UInt32.toNat_inj, hat.n_eq]; rfl
  have hs : here.slice < syncPoints / 2 ↔ slice < 2 := by
    rw [UInt32.lt_iff_toNat_lt, hat.slice_eq]
    rfl
  rw [Place.independent, hn, hs]

theorem before_lt (h : S.Within n slice lane index) : before S slice index < S.columns := by
  have hcolumn := column_lt h
  unfold before
  split <;> omega

section Iteration
variable {here : Place} {l : Local} {seed : List UInt8} (hf : Fits z S) (hat : At here n slice lane)
include hf hat

theorem toNat_prev (hindex : l.index.toNat = index)
    (hoffset : l.offset.toNat = S.place lane (slice * S.segment + index))
    (h : S.Within n slice lane index) :
    (prev z here l).toNat = S.place lane (before S slice index) := by
  have hlane := lane_end S h.lane_lt
  have hmemory := hf.memory_lt
  have hcolumn := column_lt h
  have hlanes := hf.lanes
  have hi : l.index = 0 ↔ index = 0 := by rw [← UInt32.toNat_inj, hindex]; rfl
  have hs : here.slice = 0 ↔ slice = 0 := by rw [← UInt32.toNat_inj, hat.slice_eq]; rfl
  have htwo := S.two_le
  have hone : (1 : UInt32).toNat = 1 := rfl
  unfold prev before Shape.place at *
  simp only [hi, hs]
  by_cases hzero : slice = 0 ∧ index = 0
  · rw [if_pos ⟨hzero.2, hzero.1⟩, if_pos hzero, UInt32.toNat_add, UInt32.toNat_sub, hlanes, hone]
    rw [hzero.1, hzero.2, Nat.zero_mul] at hoffset
    omega
  · have hpos : slice ≠ 0 → 0 < slice * S.segment := fun h =>
      Nat.mul_pos (Nat.pos_of_ne_zero h) (by omega)
    rw [if_neg fun hz => hzero ⟨hz.2, hz.1⟩, if_neg hzero, UInt32.toNat_sub, hone]
    omega

variable (hl : Ready S z.time l n slice lane index) (h : S.Within n slice lane index)
include hl h

theorem draw_eq (hsees : Sees S (sourceOf S z.time seed) B n slice lane index) :
    ∃ l', draw z here l B = some (random S (sourceOf S z.time seed) n slice lane index, l') ∧
      l'.index = l.index ∧ l'.offset = l.offset ∧
      (n = 0 → slice < 2 → l'.input = counterBlock S z.time slice lane (index / 128 + 1) ∧
        l'.addresses = addressBlock S z.time slice lane (index / 128 + 1)) := by
  have hindex := hl.index_eq
  by_cases hind : n = 0 ∧ slice < 2
  · have hinput := hl.counted hind.1 hind.2
    have hrenew : (renew l).index = l.index ∧ (renew l).offset = l.offset ∧
        (renew l).input = counterBlock S z.time slice lane (index / 128 + 1) ∧
        (renew l).addresses = addressBlock S z.time slice lane (index / 128 + 1) := by
      rw [renew, hindex, blockLength]
      split
      · have hcount : (index + 127) / 128 = index / 128 := by omega
        rw [hcount] at hinput
        rw [nextAddresses_eq hinput]
        exact ⟨rfl, rfl, rfl, rfl⟩
      · rename_i hmod
        have hcount : (index + 127) / 128 = index / 128 + 1 := by omega
        have haddresses := hl.addresses_eq hind.1 hind.2 hmod
        rw [hcount] at hinput haddresses
        exact ⟨rfl, rfl, hinput, haddresses⟩
    obtain ⟨hi', ho', hin', had'⟩ := hrenew
    refine ⟨renew l, ?_, hi', ho', fun _ _ => ⟨hin', had'⟩⟩
    rw [draw, if_pos ((independent_iff hat).mpr hind), random, if_pos hind]
    simp only [had', hi', sourceOf, hindex, blockLength]
  · refine ⟨l, ?_, rfl, rfl, fun hn hs => absurd ⟨hn, hs⟩ hind⟩
    rw [draw, if_neg (mt (independent_iff hat).mp hind),
      toNat_prev hf hat hl.index_eq hl.offset_eq h, hsees.own _ (before_lt h), random, if_neg hind]
    rfl

omit hf hat hl in
/-- The block that `indexAlpha` chooses, wherever the word that chooses it comes from. -/
theorem sees_reference (hsees : Sees S src B n slice lane index) (word : Nat) :
    B[S.place (S.refLane n slice lane word) (S.refColumn n slice lane index word)]? =
      some (revision S src n (S.refLane n slice lane word) (S.refColumn n slice lane index word)
        (reached S slice lane index (S.refLane n slice lane word))) := by
  by_cases heq : S.refLane n slice lane word = lane
  · obtain ⟨hlt, -, -⟩ := refColumn_of_eq h heq
    rw [reached, if_pos heq, heq]
    exact hsees.own _ hlt
  · obtain ⟨hlt, hout⟩ := refColumn_of_ne h heq
    rw [reached, if_neg heq]
    exact hsees.others _ (refLane_lt h) heq _ hlt (hout.imp_right (·.2))

/-- One iteration computes the next block of the segment. -/
theorem iterate_eq (hsees : Sees S (sourceOf S z.time seed) B n slice lane index) :
    ∃ l', iterate z here l B = some (l', B.setIfInBounds (S.place lane (slice * S.segment + index))
        (cell S (sourceOf S z.time seed) n lane (slice * S.segment + index))) ∧
      Ready S z.time l' n slice lane (index + 1) := by
  obtain ⟨l', hdraw, hi', ho', haddr⟩ := draw_eq hf hat hl h hsees
  have hwithin : S.Within here.n.toNat here.slice.toNat here.lane.toNat l'.index.toNat := by
    rw [hat.n_eq, hat.slice_eq, hat.lane_eq, hi', hl.index_eq]
    exact h
  have hprev : (prev z here l').toNat = S.place lane (before S slice index) :=
    toNat_prev hf hat (hi' ▸ hl.index_eq) (ho' ▸ hl.offset_eq) h
  have halpha := toNat_indexAlpha hf hwithin (random S (sourceOf S z.time seed) n slice lane index)
  rw [hat.n_eq, hat.slice_eq, hat.lane_eq, hi', hl.index_eq] at halpha
  have hcolumn := column_lt h
  have hout := hsees.own _ hcolumn
  have hin1 := hsees.own _ (before_lt h)
  have hin2 := sees_reference h hsees (random S (sourceOf S z.time seed) n slice lane index).toNat
  have hplace := place_lt h.lane_lt hcolumn
  have hmemory := hf.memory_lt
  have hindex := h.index_lt
  have hsegment := segment_lt hf
  refine ⟨{ l' with index := l'.index + 1, offset := l'.offset + 1 }, ?_, ?_, ?_, ?_, ?_⟩
  · rw [iterate, hdraw]
    simp only [Option.bind_eq_bind, Option.bind_some, hprev, hi', ho', halpha, hl.offset_eq, hout, hin1]
    rw [← Shape.place, hin2, cell_eq h]
    rfl
  · rw [UInt32.toNat_add, hi', hl.index_eq]
    exact Nat.mod_eq_of_lt (by omega : index + 1 < 2 ^ 32)
  · rw [UInt32.toNat_add, ho', hl.offset_eq]
    exact Nat.mod_eq_of_lt (by omega : S.place lane (slice * S.segment + index) + 1 < 2 ^ 32)
  · intro hn hs
    have hcount : (index + 1 + 127) / 128 = index / 128 + 1 := by omega
    rw [hcount]
    exact (haddr hn hs).1
  · intro hn hs hmod
    have hcount : (index + 1 + 127) / 128 = index / 128 + 1 := by omega
    rw [hcount]
    exact (haddr hn hs).2

end Iteration

/-! ## A segment -/

/-- A block written in the segment is the next revision, and no other one is touched. -/
theorem Sees.set (hsees : Sees S src B n slice lane index) (h : S.Within n slice lane index) :
    Sees S src (B.setIfInBounds (S.place lane (slice * S.segment + index))
      (cell S src n lane (slice * S.segment + index))) n slice lane (index + 1) := by
  have hcolumn := column_lt h
  have hplace := place_lt h.lane_lt hcolumn
  have hsize := hsees.size_eq
  refine ⟨by rw [Array.size_setIfInBounds, hsize], fun column hlt => ?_, fun lane' _ hne column hlt hout => ?_⟩
  · rw [Array.getElem?_setIfInBounds]
    split
    · rename_i heq
      obtain ⟨-, rfl⟩ := place_inj hcolumn hlt heq
      rw [if_pos (by omega), revision, if_pos (by omega)]
    · rename_i hne
      have hcol : column ≠ slice * S.segment + index := fun heq => hne (by rw [heq])
      rw [hsees.own column hlt]
      unfold revision
      congr 2
      grind
  · rw [Array.getElem?_setIfInBounds, if_neg, hsees.others lane' ‹_› hne column hlt hout]
    intro heq
    exact hne (place_inj hcolumn hlt heq).1.symm

/-- The loop fills the rest of the segment. -/
theorem iterations_eq {here : Place} {seed : List UInt8} (hf : Fits z S) (hat : At here n slice lane)
    {left : Nat} (hleft : index + left = S.segment) (hslice : slice < 4) (hlane : lane < S.lanes)
    (hbegun : n = 0 → slice = 0 → 2 ≤ index) {l : Local} (hl : Ready S z.time l n slice lane index)
    (hsees : Sees S (sourceOf S z.time seed) B n slice lane index) :
    ∃ l' B', iterations z here left (l, B) = some (l', B') ∧
      Ready S z.time l' n slice lane S.segment ∧ Sees S (sourceOf S z.time seed) B' n slice lane S.segment ∧
      ∀ p, ¬S.Segment slice lane p → B'[p]? = B[p]? := by
  induction left generalizing index l B with
  | zero =>
    have hend : index = S.segment := hleft
    exact ⟨l, B, rfl, hend ▸ hl, hend ▸ hsees, fun _ _ => rfl⟩
  | succ left ih =>
    have h : S.Within n slice lane index := ⟨hslice, hlane, by omega, hbegun⟩
    obtain ⟨l₁, hiterate, hl₁⟩ := iterate_eq hf hat hl h hsees
    obtain ⟨l', B', hrest, hl', hsees', hframe⟩ :=
      ih (by omega) (fun hn hs => by have := hbegun hn hs; omega) hl₁ (hsees.set h)
    refine ⟨l', B', ?_, hl', hsees', fun p hp => ?_⟩
    · rw [iterations, hiterate]
      exact hrest
    · rw [hframe p hp, Array.getElem?_setIfInBounds_ne]
      rintro rfl
      exact hp ⟨_, Nat.le_add_right _ _, by rw [Nat.succ_mul]; omega, rfl⟩

/-- The first block of a segment that is computed: the first two of a lane are given. -/
def firstIndex (n slice : Nat) : Nat := if n = 0 ∧ slice = 0 then 2 else 0

theorem firstIndex_le (S : Shape) (n slice : Nat) : firstIndex n slice ≤ S.segment := by
  have := S.two_le
  unfold firstIndex
  split <;> omega

theorem counterBlock_zero (S : Shape) (time : UInt32) (slice lane : Nat) :
    (((((zero.set 0 0).set 1 lane.toUInt64).set 2 slice.toUInt64).set 3
      (S.lanes * S.columns).toUInt64).set 4 time.toUInt64).set 5 2 = counterBlock S time slice lane 0 := by
  refine Vector.ext fun i hi => ?_
  simp only [counterBlock, Vector.getElem_set, Vector.getElem_ofFn]
  rcases i with _ | _ | _ | _ | _ | _ | _ | i
  case succ.succ.succ.succ.succ.succ.succ => simp [zero]
  all_goals rfl

theorem firstInput_eq {here : Place} (hf : Fits z S) (hat : At here n slice lane) (hn : n = 0)
    (hs : slice < 2) : firstInput z here = counterBlock S z.time slice lane 0 := by
  have hword (x : UInt32) : x.toUInt64 = x.toNat.toUInt64 := by
    rw [← UInt64.toNat_inj]
    simp
  have hzero : here.n.toUInt64 = 0 := by
    rw [hword, hat.n_eq, hn]
    rfl
  rw [firstInput, if_pos ((independent_iff hat).mpr ⟨hn, hs⟩), hzero, hword here.lane,
    hword here.slice, hword z.memory, hat.lane_eq, hat.slice_eq, hf.memory]
  exact counterBlock_zero S z.time slice lane

/-- The place of a block as the code counts it. -/
theorem toNat_offset {here : Place} (hf : Fits z S) (hat : At here n slice lane) (hslice : slice < 4)
    (hlane : lane < S.lanes) {i : UInt32} (hi : i.toNat ≤ S.segment) :
    (here.lane * z.lanes + here.slice * z.segments + i).toNat =
      S.place lane (slice * S.segment + i.toNat) := by
  have hend := lane_end S hlane
  have hmemory := hf.memory_lt
  have hslices := slice_end S hslice
  rw [Nat.succ_mul] at hslices
  rw [UInt32.toNat_add, UInt32.toNat_add, UInt32.toNat_mul, UInt32.toNat_mul, hat.lane_eq,
    hat.slice_eq, hf.lanes, hf.segments, Shape.place]
  omega

theorem ready_begin {here : Place} (hf : Fits z S) (hat : At here n slice lane) (hslice : slice < 4)
    (hlane : lane < S.lanes) : Ready S z.time (begin z here) n slice lane (firstIndex n slice) := by
  have hle := firstIndex_le S n slice
  have hn : here.n = 0 ↔ n = 0 := by rw [← UInt32.toNat_inj, hat.n_eq]; rfl
  have hs : here.slice = 0 ↔ slice = 0 := by rw [← UInt32.toNat_inj, hat.slice_eq]; rfl
  by_cases hfirst : n = 0 ∧ slice = 0
  · have hinput := firstInput_eq hf hat hfirst.1 (by omega)
    have hindex : firstIndex n slice = 2 := if_pos hfirst
    rw [hindex] at hle ⊢
    rw [begin, if_pos (by rw [hn, hs]; exact hfirst)]
    simp only
    rw [nextAddresses_eq (show _ = counterBlock S z.time slice lane 0 from hinput)]
    exact ⟨rfl, toNat_offset hf hat hslice hlane hle, fun _ _ => rfl, fun _ _ _ => rfl⟩
  · have hindex : firstIndex n slice = 0 := if_neg hfirst
    rw [hindex] at hle ⊢
    rw [begin, if_neg (by rw [hn, hs]; exact hfirst)]
    exact ⟨rfl, toNat_offset hf hat hslice hlane hle, fun hn hs => firstInput_eq hf hat hn hs,
      fun _ _ hmod => absurd (Nat.zero_mod _) hmod⟩

/-- The loop of a segment, from its first block to its end. -/
theorem segment_iterations {here : Place} {seed : List UInt8} (hf : Fits z S)
    (hat : At here n slice lane) (hslice : slice < 4) (hlane : lane < S.lanes)
    (hsees : Sees S (sourceOf S z.time seed) B n slice lane (firstIndex n slice)) :
    ∃ l' B', iterations z here (S.segment - firstIndex n slice) (begin z here, B) = some (l', B') ∧
      Ready S z.time l' n slice lane S.segment ∧ Sees S (sourceOf S z.time seed) B' n slice lane S.segment ∧
      ∀ p, ¬S.Segment slice lane p → B'[p]? = B[p]? := by
  have hle := firstIndex_le S n slice
  have hbegun : n = 0 → slice = 0 → 2 ≤ firstIndex n slice := fun hn hs => by
    rw [firstIndex, if_pos ⟨hn, hs⟩]
  exact iterations_eq hf hat (by omega) hslice hlane hbegun (ready_begin hf hat hslice hlane) hsees

theorem processSegment_eq {here : Place} {seed : List UInt8} (hf : Fits z S)
    (hat : At here n slice lane) (hslice : slice < 4) (hlane : lane < S.lanes)
    (hsees : Sees S (sourceOf S z.time seed) B n slice lane (firstIndex n slice)) :
    ∃ B', processSegment z B here = some B' ∧
      Sees S (sourceOf S z.time seed) B' n slice lane S.segment ∧
      ∀ p, ¬S.Segment slice lane p → B'[p]? = B[p]? := by
  have hl := ready_begin hf hat hslice hlane
  obtain ⟨l', B', hrun, -, hsees', hframe⟩ := segment_iterations hf hat hslice hlane hsees
  exact ⟨B', by rw [processSegment, hf.segments, hl.index_eq, hrun]; rfl, hsees', hframe⟩

/-! ## The whole memory -/

/-- The memory when pass `n` has come up to a slice, in the lanes before `lane` past it. -/
structure Filled (S : Shape) (src : Source) (B : Array Block) (n slice lane : Nat) : Prop where
  size_eq : B.size = S.lanes * S.columns
  get_eq : ∀ lane' < S.lanes, ∀ column < S.columns, B[S.place lane' column]? =
    some (revision S src n lane' column ((if lane' < lane then slice + 1 else slice) * S.segment))

theorem revision_first {bound : Nat} (h : bound ≤ 2) :
    revision S src 0 lane column bound = revision S src 0 lane column 0 := by
  simp only [revision, prior, Nat.not_lt_zero, if_false, if_true]
  split
  · rw [if_pos (by omega), cell_first (by omega)]
  · rfl

/-- The goroutine of a lane that is to come finds what it relies on. -/
theorem Filled.sees {past : Nat} (h : Filled S src B n slice past) (hpast : past ≤ lane)
    (hlane : lane < S.lanes) : Sees S src B n slice lane (firstIndex n slice) := by
  refine ⟨h.size_eq, fun column hcolumn => ?_, fun lane' hlane' hne column hcolumn hout => ?_⟩
  · rw [h.get_eq lane hlane column hcolumn, if_neg (Nat.not_lt_of_le hpast)]
    by_cases hfirst : n = 0 ∧ slice = 0
    · have hindex : firstIndex n slice = 2 := if_pos hfirst
      rw [hindex, hfirst.1, hfirst.2, Nat.zero_mul, revision_first (Nat.le_refl 2)]
    · have hindex : firstIndex n slice = 0 := if_neg hfirst
      rw [hindex, Nat.add_zero]
  · rw [h.get_eq lane' hlane' column hcolumn]
    rw [Nat.succ_mul] at hout
    unfold revision
    congr 2
    split <;> grind

theorem Filled.next (h : Filled S src B n slice lane) {B' : Array Block}
    (hsees : Sees S src B' n slice lane S.segment) (hslice : slice < 4)
    (hframe : ∀ p, ¬S.Segment slice lane p → B'[p]? = B[p]?) : Filled S src B' n slice (lane + 1) := by
  refine ⟨hsees.size_eq, fun lane' hlane' column hcolumn => ?_⟩
  by_cases heq : lane' = lane
  · rw [heq, hsees.own column hcolumn, if_pos (Nat.lt_succ_self _), Nat.succ_mul]
  · rw [hframe _ (not_segment hslice hcolumn (Or.inl heq)), h.get_eq lane' hlane' column hcolumn]
    congr 2
    grind

/-- There is one such memory. -/
theorem Filled.unique (h : Filled S src B n slice lane) {B' : Array Block}
    (h' : Filled S src B' n slice lane) : B = B' := by
  have hcolumns : 0 < S.columns := by
    have := S.two_le
    unfold Shape.columns
    omega
  refine Array.ext (h.size_eq.trans h'.size_eq.symm) fun p hp hp' => Option.some_inj.mp ?_
  have hplace : p = S.place (p / S.columns) (p % S.columns) := (Nat.div_add_mod' p S.columns).symm
  have hlane : p / S.columns < S.lanes := by
    rw [Nat.div_lt_iff_lt_mul hcolumns]
    exact h.size_eq ▸ hp
  have hcolumn := Nat.mod_lt p hcolumns
  rw [← Array.getElem?_eq_getElem hp, ← Array.getElem?_eq_getElem hp', hplace,
    h.get_eq _ hlane _ hcolumn, h'.get_eq _ hlane _ hcolumn]

/-- A counter of the code that stands for a number. -/
theorem toNat_counter {i : Nat} {bound : UInt32} (h : i < bound.toNat) : i.toUInt32.toNat = i := by
  have := bound.toNat_lt
  exact Nat.mod_eq_of_lt (by omega : i < 2 ^ 32)

/-- A slice, when its goroutines run one after the other. -/
theorem processSlice_eq {seed : List UInt8} {nw slicew : UInt32} (hf : Fits z S) (hn : nw.toNat = n)
    (hs : slicew.toNat = slice) (hslice : slice < 4)
    (h : Filled S (sourceOf S z.time seed) B n slice 0) :
    ∃ B', processSlice z B nw slicew = some B' ∧ Filled S (sourceOf S z.time seed) B' n (slice + 1) 0 := by
  obtain ⟨B', hrun, hfilled⟩ := CountedLoops.foldlM_range
    (f := fun B lane => processSegment z B ⟨nw, slicew, lane.toUInt32⟩)
    (P := fun lane B => Filled S (sourceOf S z.time seed) B n slice lane) h
    fun lane (hlane : lane < z.threads.toNat) B hfilled => by
      have hat : At ⟨nw, slicew, lane.toUInt32⟩ n slice lane := ⟨hn, hs, toNat_counter hlane⟩
      rw [hf.threads] at hlane
      obtain ⟨B', hsegment, hsees, hframe⟩ :=
        processSegment_eq hf hat hslice hlane (hfilled.sees (Nat.le_refl _) hlane)
      exact ⟨B', hsegment, hfilled.next hsees hslice hframe⟩
  rw [hf.threads] at hfilled
  refine ⟨B', hrun, hfilled.size_eq, fun lane' hlane' column hcolumn => ?_⟩
  rw [hfilled.get_eq lane' hlane' column hcolumn, if_pos hlane', if_neg (Nat.not_lt_zero _)]

/-- Past the last slice every block is the one that the next pass finds. -/
theorem Filled.pass (h : Filled S src B n 4 0) : Filled S src B (n + 1) 0 0 := by
  refine ⟨h.size_eq, fun lane' hlane' column hcolumn => ?_⟩
  rw [h.get_eq lane' hlane' column hcolumn]
  simp only [Nat.not_lt_zero, if_false, Nat.zero_mul]
  rw [revision, if_pos (show column < 4 * S.segment from hcolumn), revision,
    if_neg (Nat.not_lt_zero _), prior, if_neg (Nat.succ_ne_zero _)]
  rfl

theorem processPass_eq {seed : List UInt8} {nw : UInt32} (hf : Fits z S) (hn : nw.toNat = n)
    (h : Filled S (sourceOf S z.time seed) B n 0 0) :
    ∃ B', processPass z B nw = some B' ∧ Filled S (sourceOf S z.time seed) B' (n + 1) 0 0 := by
  obtain ⟨B', hrun, hfilled⟩ := CountedLoops.foldlM_range
    (f := fun B slice => processSlice z B nw slice.toUInt32)
    (P := fun slice B => Filled S (sourceOf S z.time seed) B n slice 0) h
    fun slice (hslice : slice < syncPoints.toNat) B hfilled =>
      processSlice_eq hf hn (toNat_counter hslice) hslice hfilled
  exact ⟨B', hrun, hfilled.pass⟩

theorem processBlocks_eq {seed : List UInt8} (hf : Fits z S)
    (h : Filled S (sourceOf S z.time seed) B 0 0 0) :
    ∃ B', processBlocks z B = some B' ∧ Filled S (sourceOf S z.time seed) B' z.time.toNat 0 0 :=
  CountedLoops.foldlM_range (P := fun n B => Filled S (sourceOf S z.time seed) B n 0 0) h
    fun _ hn _ hfilled => processPass_eq hf (toNat_counter hn) hfilled

end LukePanel.Crypto.Argon2.Fill
