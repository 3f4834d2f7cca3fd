import LukePanel.Crypto.Argon2

/-! # Where a block takes its reference from

The arithmetic of `indexAlpha` without machine words, and which blocks it can choose: none that
is being written, neither by the goroutine itself nor by another one of the same slice. -/
namespace LukePanel.Crypto.Argon2.Reference

/-- The memory as lanes of four segments. -/
structure Shape where
  lanes : Nat
  segment : Nat
  lanes_pos : 0 < lanes
  two_le : 2 ≤ segment

namespace Shape

/-- The blocks of a lane. -/
def columns (S : Shape) : Nat := 4 * S.segment

variable (S : Shape)

/-- The lane of the reference, for the block in lane `lane` of slice `slice` in pass `n`. -/
def refLane (n slice lane random : Nat) : Nat :=
  if n = 0 ∧ slice = 0 then lane else random / 2 ^ 32 % S.lanes

/-- How many blocks there are to choose from: those of three slices or, in the first pass, of the
slices so far, and those of the segment itself, without the block before. -/
def area (n slice index : Nat) (same : Bool) : Nat :=
  let slices := if n = 0 then slice * S.segment else 3 * S.segment
  if same then slices + index - 1 else if index = 0 then slices - 1 else slices

/-- The first of them. -/
def start (n slice : Nat) : Nat := if n = 0 then 0 else (slice + 1) % 4 * S.segment

/-- The column chosen among `area` ones, with a preference for late ones. -/
def choose (random area start : Nat) : Nat :=
  let x := (random % 2 ^ 32) ^ 2 / 2 ^ 32
  (start + (area - 1 - area * x / 2 ^ 32)) % S.columns

def refColumn (n slice lane index random : Nat) : Nat :=
  S.choose random (S.area n slice index (lane == S.refLane n slice lane random)) (S.start n slice)

end Shape

/-- A segment that is filled: `n`, `slice`, `lane` and `index` of a block in it. -/
structure Shape.Within (S : Shape) (n slice lane index : Nat) : Prop where
  slice_lt : slice < 4
  lane_lt : lane < S.lanes
  index_lt : index < S.segment
  begun : n = 0 → slice = 0 → 2 ≤ index

variable {S : Shape} {n slice lane index random : Nat}

theorem refLane_lt (h : S.Within n slice lane index) : S.refLane n slice lane random < S.lanes := by
  unfold Shape.refLane
  split
  · exact h.lane_lt
  · exact Nat.mod_lt _ S.lanes_pos

theorem area_pos (h : S.Within n slice lane index) {same : Bool}
    (hsame : n = 0 → slice = 0 → same = true) : 0 < S.area n slice index same := by
  have htwo := S.two_le
  have hbegun := h.begun
  have hslice : slice = 0 ∨ S.segment ≤ slice * S.segment := by
    rcases Nat.eq_zero_or_pos slice with hzero | hpos
    · exact Or.inl hzero
    · exact Or.inr (Nat.le_mul_of_pos_left _ hpos)
  unfold Shape.area
  grind

theorem columns_le (S : Shape) : S.columns ≤ S.lanes * S.columns :=
  Nat.le_mul_of_pos_left _ S.lanes_pos

theorem lane_end (S : Shape) (h : lane < S.lanes) :
    lane * S.columns + S.columns ≤ S.lanes * S.columns := by
  rw [← Nat.succ_mul]
  exact Nat.mul_le_mul_right _ h

/-- What is chosen lies before the end of the area. -/
theorem choose_eq (S : Shape) (random : Nat) {area : Nat} (start : Nat) (hpos : 0 < area) :
    ∃ d < area, S.choose random area start = (start + d) % S.columns :=
  ⟨_, by omega, rfl⟩

theorem mod_columns (S : Shape) {c : Nat} (h : c < 2 * S.columns) :
    c % S.columns = c ∧ c < S.columns ∨ c % S.columns = c - S.columns ∧ S.columns ≤ c := by
  rcases Nat.lt_or_ge c S.columns with hlt | hge
  · exact Or.inl ⟨Nat.mod_eq_of_lt hlt, hlt⟩
  · refine Or.inr ⟨?_, hge⟩
    rw [Nat.mod_eq_sub_mod hge, Nat.mod_eq_of_lt (by omega)]

/-- The reference into another lane lies outside the slice that is being filled. -/
theorem refColumn_of_ne (h : S.Within n slice lane index)
    (hne : S.refLane n slice lane random ≠ lane) :
    let c := S.refColumn n slice lane index random
    c < S.columns ∧ (c < slice * S.segment ∨ n ≠ 0 ∧ (slice + 1) * S.segment ≤ c) := by
  have htwo := S.two_le
  have hslice := h.slice_lt
  have hfirst : ¬(n = 0 ∧ slice = 0) := fun hzero => hne (if_pos hzero)
  have hsame : (lane == S.refLane n slice lane random) = false := beq_false_of_ne (Ne.symm hne)
  have hpos : 0 < S.area n slice index false := area_pos h fun hn hs => absurd ⟨hn, hs⟩ hfirst
  obtain ⟨d, hd, hc⟩ := choose_eq S random (S.start n slice) hpos
  simp only [Shape.refColumn, hsame, hc]
  have hbound : S.start n slice + d < 2 * S.columns := by
    simp only [Shape.area, Shape.start, Shape.columns] at hd ⊢
    have : slice = 0 ∨ slice = 1 ∨ slice = 2 ∨ slice = 3 := by omega
    rcases this with rfl | rfl | rfl | rfl <;> grind
  have hmod := mod_columns S hbound
  simp only [Shape.area, Shape.start, Shape.columns] at hd hmod ⊢
  have : slice = 0 ∨ slice = 1 ∨ slice = 2 ∨ slice = 3 := by omega
  rcases this with rfl | rfl | rfl | rfl <;> grind

/-- The reference into the own lane is neither the block that is filled nor the one before. -/
theorem refColumn_of_eq (h : S.Within n slice lane index)
    (heq : S.refLane n slice lane random = lane) :
    let c := S.refColumn n slice lane index random
    c < S.columns ∧ (c + 1 < slice * S.segment + index ∨ n ≠ 0 ∧ (slice + 1) * S.segment ≤ c) ∧
      (slice = 0 → index = 0 → c + 1 < S.columns) := by
  have htwo := S.two_le
  have hslice := h.slice_lt
  have hindex := h.index_lt
  have hbegun := h.begun
  have hsame : (lane == S.refLane n slice lane random) = true := beq_iff_eq.mpr heq.symm
  have hpos : 0 < S.area n slice index true := area_pos h fun _ _ => rfl
  obtain ⟨d, hd, hc⟩ := choose_eq S random (S.start n slice) hpos
  simp only [Shape.refColumn, hsame, hc]
  have hbound : S.start n slice + d < 2 * S.columns := by
    simp only [Shape.area, Shape.start, Shape.columns] at hd ⊢
    have : slice = 0 ∨ slice = 1 ∨ slice = 2 ∨ slice = 3 := by omega
    rcases this with rfl | rfl | rfl | rfl <;> grind
  have hmod := mod_columns S hbound
  simp only [Shape.area, Shape.start, Shape.columns] at hd hmod ⊢
  have : slice = 0 ∨ slice = 1 ∨ slice = 2 ∨ slice = 3 := by omega
  rcases this with rfl | rfl | rfl | rfl <;> grind

/-! ## The machine words -/

theorem toNat_low (random : UInt64) : (random &&& 0xffffffff).toNat = random.toNat % 2 ^ 32 := by
  rw [UInt64.toNat_and]
  exact Nat.and_two_pow_sub_one_eq_mod _ 32

theorem toNat_shiftRight (x : UInt64) : (x >>> 32).toNat = x.toNat / 2 ^ 32 := by
  rw [UInt64.toNat_shiftRight]
  exact Nat.shiftRight_eq_div_pow _ _

theorem toNat_mul_of_lt {x y : UInt64} (hx : x.toNat < 2 ^ 32) (hy : y.toNat < 2 ^ 32) :
    (x * y).toNat = x.toNat * y.toNat := by
  rw [UInt64.toNat_mul]
  apply Nat.mod_eq_of_lt
  calc x.toNat * y.toNat < 2 ^ 32 * 2 ^ 32 := Nat.mul_lt_mul'' hx hy
    _ = 2 ^ 64 := by decide

theorem toNat_phi {S : Shape} {random m start : UInt64} {lane lanes : UInt32}
    (hlanes : lanes.toNat = S.columns) (hm : 0 < m.toNat) (hmlt : m.toNat < 2 ^ 32)
    (hstart : start.toNat < 2 ^ 32) (hend : lane.toNat * S.columns + S.columns ≤ 2 ^ 32) :
    (phi random m start lane lanes).toNat =
      lane.toNat * S.columns + S.choose random.toNat m.toNat start.toNat := by
  have hcolumns : 0 < S.columns := by have := S.two_le; simp only [Shape.columns]; omega
  have hlow := toNat_low random
  have hlowlt : (random &&& 0xffffffff).toNat < 2 ^ 32 := by omega
  have hx : (((random &&& 0xffffffff) * (random &&& 0xffffffff)) >>> 32).toNat =
      (random.toNat % 2 ^ 32) ^ 2 / 2 ^ 32 := by
    rw [toNat_shiftRight, toNat_mul_of_lt hlowlt hlowlt, hlow, Nat.pow_two]
  unfold phi Shape.choose
  simp only
  generalize ((random &&& 0xffffffff) * (random &&& 0xffffffff)) >>> 32 = x at hx ⊢
  have hxlt : x.toNat < 2 ^ 32 := by
    rw [hx, Nat.div_lt_iff_lt_mul (by decide), Nat.pow_two]
    exact Nat.mul_lt_mul'' (by omega) (by omega)
  have hy : ((x * m) >>> 32).toNat = m.toNat * x.toNat / 2 ^ 32 := by
    rw [toNat_shiftRight, toNat_mul_of_lt hxlt hmlt, Nat.mul_comm]
  have hylt : m.toNat * x.toNat / 2 ^ 32 < m.toNat := by
    rw [Nat.div_lt_iff_lt_mul (by decide)]
    exact Nat.mul_lt_mul_of_pos_left hxlt hm
  rw [← hx]
  generalize (x * m) >>> 32 = y at hy ⊢
  -- neither the difference nor the remainder leaves its machine word
  have hdiff : ((start + m - (y + 1)) % lanes.toUInt64).toNat =
      (start.toNat + (m.toNat - 1 - m.toNat * x.toNat / 2 ^ 32)) % S.columns := by
    rw [UInt64.toNat_mod, UInt32.toNat_toUInt64, hlanes]
    congr 1
    rw [UInt64.toNat_sub, UInt64.toNat_add, UInt64.toNat_add, hy]
    simp only [UInt64.toNat_one]
    omega
  have hmod := Nat.mod_lt (start.toNat + (m.toNat - 1 - m.toNat * x.toNat / 2 ^ 32)) hcolumns
  rw [UInt32.toNat_add, UInt32.toNat_mul, UInt64.toNat_toUInt32, hdiff, hlanes]
  omega

/-- Sizes that make up the shape. -/
structure Fits (z : Sizes) (S : Shape) : Prop where
  threads : z.threads.toNat = S.lanes
  memory : z.memory.toNat = S.lanes * S.columns

namespace Fits

variable {z : Sizes} (hf : Fits z S)
include hf

theorem lanes : z.lanes.toNat = S.columns := by
  rw [Sizes.lanes, UInt32.toNat_div, hf.memory, hf.threads, Nat.mul_div_cancel_left _ S.lanes_pos]

theorem segments : z.segments.toNat = S.segment := by
  rw [Sizes.segments, UInt32.toNat_div, hf.lanes, Shape.columns]
  exact Nat.mul_div_cancel_left _ (by decide)

theorem memory_lt : S.lanes * S.columns < 2 ^ 32 := hf.memory ▸ z.memory.toNat_lt

end Fits

theorem segment_lt {z : Sizes} (hf : Fits z S) : 4 * S.segment < 2 ^ 32 :=
  Nat.lt_of_le_of_lt (columns_le S) hf.memory_lt

theorem toNat_area {segments n slice index : UInt32} (hsegments : segments.toNat = S.segment)
    (hlt : 4 * S.segment < 2 ^ 32) (h : S.Within n.toNat slice.toNat lane index.toNat)
    {same : Bool} (hsame : n.toNat = 0 → slice.toNat = 0 → same = true) :
    (area segments n slice index same).toNat = S.area n.toNat slice.toNat index.toNat same := by
  have hpos := area_pos h hsame
  have htwo := S.two_le
  have hslice := h.slice_lt
  have hindex := h.index_lt
  have hslices : slice.toNat * S.segment + S.segment ≤ 4 * S.segment := by
    rw [← Nat.succ_mul]
    exact Nat.mul_le_mul_right _ hslice
  have hzero (x : UInt32) : x = 0 ↔ x.toNat = 0 := by rw [← UInt32.toNat_inj]; rfl
  simp only [area, Shape.area, hzero] at hpos ⊢
  cases same <;> by_cases hn : n.toNat = 0 <;> by_cases hi : index.toNat = 0 <;>
    by_cases hs : slice.toNat = 0 <;>
    simp only [hn, hi, hs, Bool.false_eq_true, if_true, if_false, or_true, or_false, or_self,
      UInt32.toNat_add, UInt32.toNat_sub, UInt32.toNat_mul, hsegments, UInt32.reduceToNat] at hpos hsame ⊢ <;>
    omega

theorem toNat_indexAlpha {z : Sizes} (hf : Fits z S) {n slice lane index : UInt32}
    (h : S.Within n.toNat slice.toNat lane.toNat index.toNat) (random : UInt64) :
    (indexAlpha random z.lanes z.segments z.threads n slice lane index).toNat =
      S.refLane n.toNat slice.toNat lane.toNat random.toNat * S.columns +
        S.refColumn n.toNat slice.toNat lane.toNat index.toNat random.toNat := by
  have hlt : S.refLane n.toNat slice.toNat lane.toNat random.toNat < S.lanes := refLane_lt h
  have hzero (x : UInt32) : x = 0 ↔ x.toNat = 0 := by rw [← UInt32.toNat_inj]; rfl
  have hlane : (if n = 0 ∧ slice = 0 then lane else (random >>> 32).toUInt32 % z.threads).toNat =
      S.refLane n.toNat slice.toNat lane.toNat random.toNat := by
    have hbig := random.toNat_lt
    rw [Shape.refLane, apply_ite UInt32.toNat, UInt32.toNat_mod, UInt64.toNat_toUInt32,
      toNat_shiftRight, hf.threads, Nat.mod_eq_of_lt (by omega : random.toNat / 2 ^ 32 < 2 ^ 32)]
    simp only [hzero]
  unfold indexAlpha
  simp only
  generalize (if n = 0 ∧ slice = 0 then lane else (random >>> 32).toUInt32 % z.threads) = refLane
    at hlane ⊢
  have hsame : (lane == refLane) =
      (lane.toNat == S.refLane n.toNat slice.toNat lane.toNat random.toNat) := by
    rw [← hlane, Bool.eq_iff_iff, beq_iff_eq, beq_iff_eq, UInt32.toNat_inj]
  have hfirst : n.toNat = 0 → slice.toNat = 0 → (lane == refLane) = true := fun hn hs => by
    rw [hsame, Shape.refLane, if_pos ⟨hn, hs⟩, beq_self_eq_true]
  have harea := toNat_area hf.segments (segment_lt hf) h hfirst
  have hstart : (if n = 0 then 0 else (slice + 1) % syncPoints * z.segments).toNat =
      S.start n.toNat slice.toNat := by
    have hslice := h.slice_lt
    have hlt := segment_lt hf
    have hround : ((slice + 1) % syncPoints).toNat = (slice.toNat + 1) % 4 := by
      rw [UInt32.toNat_mod, UInt32.toNat_add]
      exact congrArg (· % 4) (Nat.mod_eq_of_lt (by omega : slice.toNat + 1 < 2 ^ 32))
    have hmul : (slice.toNat + 1) % 4 * S.segment < 2 ^ 32 :=
      Nat.lt_of_le_of_lt (Nat.mul_le_mul_right _ (by omega)) hlt
    rw [Shape.start, apply_ite UInt32.toNat, UInt32.toNat_mul, hround, hf.segments,
      Nat.mod_eq_of_lt hmul]
    simp only [hzero]
    rfl
  have hend := Nat.le_trans (lane_end S hlt) (Nat.le_of_lt hf.memory_lt)
  have hpos := area_pos h hfirst
  rw [toNat_phi hf.lanes, hlane, UInt32.toNat_toUInt64, UInt32.toNat_toUInt64, harea, hstart, hsame]
  · rfl
  · rw [UInt32.toNat_toUInt64, harea]
    exact hpos
  · rw [UInt32.toNat_toUInt64]
    exact UInt32.toNat_lt _
  · rw [UInt32.toNat_toUInt64]
    exact UInt32.toNat_lt _
  · rw [hlane]
    exact hend

/-! ## The blocks of a segment -/

/-- The place of a block in the memory. -/
def Shape.place (S : Shape) (lane column : Nat) : Nat := lane * S.columns + column

theorem place_lt {column : Nat} (hlane : lane < S.lanes) (hcolumn : column < S.columns) :
    S.place lane column < S.lanes * S.columns := by
  have := lane_end S hlane
  unfold Shape.place
  omega

theorem place_inj {lane' column column' : Nat} (hcolumn : column < S.columns)
    (hcolumn' : column' < S.columns) (h : S.place lane column = S.place lane' column') :
    lane = lane' ∧ column = column' := by
  have hlanes := congrArg (· / S.columns) h
  have hcolumns := congrArg (· % S.columns) h
  have hpos : 0 < S.columns := by omega
  simp only [Shape.place, Nat.mul_comm _ S.columns] at hlanes hcolumns
  rw [Nat.mul_add_div hpos, Nat.mul_add_div hpos, Nat.div_eq_of_lt hcolumn,
    Nat.div_eq_of_lt hcolumn'] at hlanes
  rw [Nat.mul_add_mod, Nat.mul_add_mod, Nat.mod_eq_of_lt hcolumn, Nat.mod_eq_of_lt hcolumn'] at hcolumns
  exact ⟨by omega, hcolumns⟩

/-- The blocks that the goroutine of a lane writes in a slice. -/
def Shape.Segment (S : Shape) (slice lane : Nat) (p : Nat) : Prop :=
  ∃ column, slice * S.segment ≤ column ∧ column < (slice + 1) * S.segment ∧ p = S.place lane column

theorem slice_end (S : Shape) (h : slice < 4) : (slice + 1) * S.segment ≤ S.columns :=
  Nat.mul_le_mul_right _ h

/-- The sizes that `IDKey` computes make up a shape. -/
def shapeOf (memory : UInt32) (threads : UInt8) (h : 0 < threads.toNat) : Shape where
  lanes := threads.toNat
  segment := max 2 (memory.toNat / (4 * threads.toNat))
  lanes_pos := h
  two_le := Nat.le_max_left _ _

theorem fits_shapeOf (memory time : UInt32) (threads : UInt8) (h : 0 < threads.toNat) :
    Fits ⟨roundMemory memory threads.toUInt32, time, threads.toUInt32⟩ (shapeOf memory threads h) := by
  have hlt := threads.toNat_lt
  have hmemory := memory.toNat_lt
  have hfour : (syncPoints * threads.toUInt32).toNat = 4 * threads.toNat := by
    rw [UInt32.toNat_mul, UInt8.toNat_toUInt32]
    exact Nat.mod_eq_of_lt (by omega : 4 * threads.toNat < 2 ^ 32)
  have height : (2 * syncPoints * threads.toUInt32).toNat = 8 * threads.toNat := by
    rw [UInt32.toNat_mul, UInt8.toNat_toUInt32]
    exact Nat.mod_eq_of_lt (by omega : 8 * threads.toNat < 2 ^ 32)
  have hle := Nat.div_mul_le_self memory.toNat (4 * threads.toNat)
  have hround : (memory / (syncPoints * threads.toUInt32) * (syncPoints * threads.toUInt32)).toNat =
      memory.toNat / (4 * threads.toNat) * (4 * threads.toNat) := by
    rw [UInt32.toNat_mul, UInt32.toNat_div, hfour, Nat.mod_eq_of_lt (by omega)]
  refine ⟨UInt8.toNat_toUInt32 _, ?_⟩
  simp only [roundMemory, apply_ite UInt32.toNat, UInt32.lt_iff_toNat_lt, hround, height, shapeOf,
    Shape.columns]
  generalize memory.toNat / (4 * threads.toNat) = k
  rcases Nat.lt_or_ge k 2 with hk | hk
  · have hsmall : k * (4 * threads.toNat) < 8 * threads.toNat := by
      have := Nat.mul_le_mul_right (4 * threads.toNat) (by omega : k ≤ 1)
      omega
    rw [if_pos hsmall, Nat.max_eq_left (by omega)]
    omega
  · have hlarge : 8 * threads.toNat ≤ k * (4 * threads.toNat) := by
      have := Nat.mul_le_mul_right (4 * threads.toNat) hk
      omega
    rw [if_neg (by omega), Nat.max_eq_right hk]
    grind

theorem not_segment {lane' column : Nat} (hslice : slice < 4) (hcolumn : column < S.columns)
    (h : lane ≠ lane' ∨ column < slice * S.segment ∨ (slice + 1) * S.segment ≤ column) :
    ¬S.Segment slice lane' (S.place lane column) := by
  rintro ⟨column', hfirst, hlast, heq⟩
  have hend := slice_end S hslice
  obtain ⟨hlane, hcol⟩ := place_inj hcolumn (by omega) heq
  omega

end LukePanel.Crypto.Argon2.Reference
