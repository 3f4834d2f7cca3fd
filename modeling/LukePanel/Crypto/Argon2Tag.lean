import LukePanel.Crypto.Argon2Fill

/-! # Derived keys

`IDKey` gives the tag of Argon2id for every memory size and every number of passes and lanes, and
panics for the parameters that it checks and for a key of no bytes, and for no others. -/
namespace LukePanel.Crypto.Argon2.Tag
open LukePanel.Library LukePanel.Crypto.Blake2b LukePanel.Crypto.Blake2b.Reference
  LukePanel.Crypto.Blake2b.Stream LukePanel.Crypto.VariableHash LukePanel.Crypto.Argon2.Reference
  LukePanel.Crypto.Argon2.Fill

variable {S : Shape} {z : Sizes} {B : Array Block} {h0 : List UInt8}

/-! ## The hash of the parameters -/

theorem initHash_eq (password salt key data : List UInt8) (time memory threads keyLen : UInt32) :
    initHash password salt key data time memory threads keyLen =
      some (seed password salt key data time memory threads keyLen ++ List.replicate 8 0) := by
  obtain ⟨d, hd, hholds⟩ := new_toOption (by decide : 0 < maxSize) (Nat.le_refl _)
  have hnew : (new512 []).toOption = some d := hd
  have hwrite {d : Digest} {message : List UInt8} (h : Holds d maxSize [] message) (bytes : List UInt8) :
      Holds ((d.write (LittleEndian.putUint32 bytes.length.toUInt32)).write bytes) maxSize []
        (message ++ field bytes) := by
    rw [field, ← List.append_assoc]
    exact (h.write _).write bytes
  have hparams := hholds.write (LittleEndian.putUint32 threads ++ LittleEndian.putUint32 keyLen ++
    LittleEndian.putUint32 memory ++ LittleEndian.putUint32 time ++
    LittleEndian.putUint32 version ++ LittleEndian.putUint32 argon2id)
  have hsum := (hwrite (hwrite (hwrite (hwrite hparams password) salt) key) data).sum_eq []
  rw [initHash, hnew]
  simp only [Option.bind_eq_bind, Option.bind_some, List.foldl_cons, List.foldl_nil, hsum]
  rfl

theorem length_seed (password salt key data : List UInt8) (time memory threads keyLen : UInt32) :
    (seed password salt key data time memory threads keyLen).length = maxSize :=
  length_blake2b (Nat.le_refl _) _ _

/-! ## The first blocks -/

/-- What `initBlocks` has stored after some lanes. -/
structure Begun (S : Shape) (src : Source) (B : Array Block) (lane : Nat) : Prop where
  size_eq : B.size = S.lanes * S.columns
  get_eq : ∀ lane' < S.lanes, ∀ column < S.columns, B[S.place lane' column]? =
    some (if lane' < lane ∧ column < 2 then src.first lane' column else zero)

theorem initBlock_eq {seed : List UInt8} (hseed : seed.length = maxSize)
    (time lane column : UInt32) :
    initBlock (seed ++ List.replicate 8 0) lane column =
      some ((sourceOf S time seed).first lane.toNat column.toNat) := by
  have hword (x : UInt32) : x.toNat.toUInt32 = x := by
    rw [← UInt32.toNat_inj]
    exact Nat.mod_eq_of_lt x.toNat_lt
  rw [initBlock, List.take_left' hseed, blake2bHash_eq, if_neg (by decide), sourceOf]
  simp only [hword, Option.map_some]

theorem store_eq {j : UInt32} {p : Nat} (hp : j.toNat = p) (hlt : p < B.size) (block : Block) :
    store B j block = some (B.setIfInBounds p block) := by
  rw [store, hp, if_pos hlt]

theorem Begun.next {src : Source} {lane : Nat} (h : Begun S src B lane) (hlane : lane < S.lanes) :
    Begun S src ((B.setIfInBounds (S.place lane 0) (src.first lane 0)).setIfInBounds (S.place lane 1)
      (src.first lane 1)) (lane + 1) := by
  have htwo := S.two_le
  have hcolumns : 2 ≤ S.columns := by unfold Shape.columns; omega
  have h0 := place_lt hlane (by omega : 0 < S.columns)
  have h1 := place_lt hlane (by omega : 1 < S.columns)
  have hsize := h.size_eq
  refine ⟨by rw [Array.size_setIfInBounds, Array.size_setIfInBounds, hsize],
    fun lane' hlane' column hcolumn => ?_⟩
  have hget := h.get_eq lane' hlane' column hcolumn
  have hinj (c : Nat) (hc : c < S.columns) : S.place lane c = S.place lane' column ↔
      lane = lane' ∧ c = column :=
    ⟨place_inj hc hcolumn, fun heq => by rw [heq.1, heq.2]⟩
  rw [Array.getElem?_setIfInBounds, Array.getElem?_setIfInBounds, Array.size_setIfInBounds]
  simp only [hinj 0 (by omega), hinj 1 (by omega), hget, hsize, h0, h1, if_true]
  grind

theorem initLane_eq {seed : List UInt8} (hseed : seed.length = maxSize) (hf : Fits z S)
    {lane : Nat} (hlane : lane < S.lanes) (h : Begun S (sourceOf S z.time seed) B lane) :
    ∃ B', initLane (seed ++ List.replicate 8 0) z.memory z.threads B lane.toUInt32 = some B' ∧
      Begun S (sourceOf S z.time seed) B' (lane + 1) := by
  refine ⟨_, ?_, h.next hlane⟩
  have hmemory := hf.memory_lt
  have hend := lane_end S hlane
  have htwo := S.two_le
  have hcolumns : 2 ≤ S.columns := by unfold Shape.columns; omega
  have hword : lane.toUInt32.toNat = lane := toNat_counter (hf.threads ▸ hlane)
  have hlanes : z.memory / z.threads = z.lanes := rfl
  have hj : (lane.toUInt32 * z.lanes).toNat = S.place lane 0 := by
    rw [UInt32.toNat_mul, hword, hf.lanes, Shape.place]
    exact Nat.mod_eq_of_lt (by omega)
  have hj' : (lane.toUInt32 * z.lanes + 1).toNat = S.place lane 1 := by
    rw [UInt32.toNat_add, hj, Shape.place, Shape.place]
    exact Nat.mod_eq_of_lt (by omega : lane * S.columns + 0 + 1 < 2 ^ 32)
  have h0 := place_lt hlane (by omega : 0 < S.columns)
  have h1 := place_lt hlane (by omega : 1 < S.columns)
  have hsize := h.size_eq
  rw [initLane, hlanes, initBlock_eq (S := S) hseed z.time, initBlock_eq (S := S) hseed z.time, hword]
  simp only [Option.bind_eq_bind, Option.bind_some, store_eq hj (by omega : S.place lane 0 < B.size)]
  exact store_eq hj' (by rw [Array.size_setIfInBounds]; omega) _

theorem initBlocks_eq {seed : List UInt8} (hseed : seed.length = maxSize) (hf : Fits z S) :
    ∃ B, initBlocks (seed ++ List.replicate 8 0) z.memory z.threads = some B ∧
      Filled S (sourceOf S z.time seed) B 0 0 0 := by
  have hzero : Begun S (sourceOf S z.time seed) (Array.replicate z.memory.toNat zero) 0 := by
    refine ⟨by rw [Array.size_replicate, hf.memory], fun lane hlane column hcolumn => ?_⟩
    have hplace := place_lt hlane hcolumn
    rw [if_neg (by omega), Array.getElem?_replicate, if_pos (hf.memory ▸ hplace)]
  obtain ⟨B, hrun, hbegun⟩ := CountedLoops.foldlM_range
    (f := fun B lane => initLane (seed ++ List.replicate 8 0) z.memory z.threads B lane.toUInt32)
    (P := fun lane B => Begun S (sourceOf S z.time seed) B lane) hzero
    fun lane (hlane : lane < z.threads.toNat) B h => initLane_eq hseed hf (hf.threads ▸ hlane) h
  refine ⟨B, hrun, hbegun.size_eq, fun lane hlane column hcolumn => ?_⟩
  rw [hbegun.get_eq lane hlane column hcolumn, hf.threads]
  simp only [hlane, true_and, Nat.not_lt_zero, if_false, Nat.zero_mul, revision, prior, if_true]

/-! ## The key -/

theorem xor_comm (a b : Block) : xor a b = xor b a := by
  refine Vector.ext fun i hi => ?_
  simp only [xor, Vector.getElem_zipWith]
  exact UInt64.xor_comm _ _

theorem xor_assoc (a b c : Block) : xor (xor a b) c = xor a (xor b c) := by
  refine Vector.ext fun i hi => ?_
  simp only [xor, Vector.getElem_zipWith]
  exact UInt64.xor_assoc _ _ _

theorem xor_zero (a : Block) : xor a zero = a := by
  refine Vector.ext fun i hi => ?_
  simp only [xor, zero, Vector.getElem_zipWith, Vector.getElem_replicate]
  exact UInt64.xor_zero

theorem foldl_xor (value : Nat → Block) (sum : Block) (l : List Nat) :
    l.foldl (fun sum lane => xor sum (value lane)) sum =
      xor (l.foldl (fun sum lane => xor sum (value lane)) zero) sum := by
  induction l generalizing sum with
  | nil => rw [List.foldl_nil, List.foldl_nil, xor_comm, xor_zero]
  | cons lane l ih =>
    rw [List.foldl_cons, List.foldl_cons, ih, ih (xor zero (value lane)), xor_comm zero, xor_zero,
      xor_assoc, xor_comm sum]

/-- The last column added up, beginning with the last lane. -/
theorem lastBlock_eq {src : Source} {n : Nat} (hf : Fits z S) (h : Filled S src B (n + 1) 0 0) :
    lastBlock B z.memory z.threads = some (lastColumn S src n) := by
  have hpos := S.lanes_pos
  have htwo := S.two_le
  have hmemory := hf.memory_lt
  have hcolumns : 0 < S.columns := by unfold Shape.columns; omega
  have hget (lane : Nat) (hlane : lane < S.lanes) :
      B[S.place lane (S.columns - 1)]? = some (cell S src n lane (S.columns - 1)) := by
    rw [h.get_eq lane hlane _ (by omega), revision]
    simp [prior]
  have hlanes : z.memory / z.threads = z.lanes := rfl
  have hone : (1 : UInt32).toNat = 1 := rfl
  have hprevious : (z.threads - 1).toNat = S.lanes - 1 := by
    have := z.threads.toNat_lt
    rw [UInt32.toNat_sub, hone, hf.threads]
    rw [hf.threads] at this
    omega
  have hlast : (z.memory - 1).toNat = S.place (S.lanes - 1) (S.columns - 1) := by
    have hend := lane_end S (Nat.sub_lt hpos Nat.one_pos)
    have hmul : (S.lanes - 1) * S.columns + S.columns = S.lanes * S.columns := by
      rw [← Nat.succ_mul, Nat.succ_eq_add_one, Nat.sub_add_cancel hpos]
    rw [UInt32.toNat_sub, hone, hf.memory, Shape.place]
    omega
  have hloop : ∀ count < S.lanes, (List.range count).foldlM (fun last lane => do
      let value ← B[(lane.toUInt32 * z.lanes + z.lanes - 1).toNat]?
      return xor last value) (cell S src n (S.lanes - 1) (S.columns - 1)) =
        some ((List.range count).foldl (fun sum lane => xor sum (cell S src n lane (S.columns - 1)))
          (cell S src n (S.lanes - 1) (S.columns - 1))) := by
    intro count
    induction count with
    | zero => exact fun _ => rfl
    | succ lane ih =>
      intro hlt
      have hend := lane_end S (by omega : lane < S.lanes)
      have hword : lane.toUInt32.toNat = lane := toNat_counter (hf.threads ▸ (by omega : lane < S.lanes))
      have hplace : (lane.toUInt32 * z.lanes + z.lanes - 1).toNat = S.place lane (S.columns - 1) := by
        rw [UInt32.toNat_sub, UInt32.toNat_add, UInt32.toNat_mul, hword, hf.lanes, hone, Shape.place]
        omega
      rw [List.range_succ, List.foldlM_append, List.foldl_append, ih (by omega)]
      simp only [Option.bind_eq_bind, Option.bind_some, List.foldlM_cons, List.foldlM_nil, hplace,
        hget lane (by omega)]
      rfl
  rw [lastBlock, hlanes, hlast, hget _ (by omega), hprevious]
  simp only [Option.bind_eq_bind, Option.bind_some]
  have hsplit : List.range S.lanes = List.range (S.lanes - 1) ++ [S.lanes - 1] := by
    rw [← List.range_succ, Nat.succ_eq_add_one, Nat.sub_add_cancel hpos]
  refine (hloop (S.lanes - 1) (by omega)).trans ?_
  rw [lastColumn, hsplit, List.foldl_append, foldl_xor]
  rfl

theorem deriveKey_eq (password salt : List UInt8) {time : UInt32} (memory : UInt32)
    {threads : UInt8} (htime : 0 < time.toNat) (hthreads : 0 < threads.toNat) (keyLen : UInt32) :
    deriveKey password salt time memory threads.toUInt32 keyLen =
      if keyLen.toNat = 0 then none
      else some (tag password salt time memory threads hthreads keyLen) := by
  obtain ⟨n, hn⟩ := Nat.exists_eq_succ_of_ne_zero (Nat.ne_of_gt htime)
  have hf := fits_shapeOf memory time threads hthreads
  have hseed := length_seed password salt [] [] time memory threads.toUInt32 keyLen
  obtain ⟨B, hinit, hbegun⟩ := initBlocks_eq hseed hf
  obtain ⟨B', hrun, hfilled⟩ := processBlocks_eq hf hbegun
  rw [hn] at hfilled
  have hlast := lastBlock_eq hf hfilled
  simp only at hinit hlast
  simp only [deriveKey, initHash_eq, hinit, hrun, extractKey, hlast, Option.bind_eq_bind,
    Option.bind_some, blake2bHash_eq, tag, hn, Nat.succ_sub_one]

/-- `IDKey` gives the tag, and it panics exactly for no passes, no lanes or no bytes. -/
theorem idKey_eq (password salt : List UInt8) (time memory : UInt32) (threads : UInt8)
    (keyLen : UInt32) :
    idKey password salt time memory threads keyLen =
      if h : 0 < time.toNat ∧ 0 < threads.toNat ∧ 0 < keyLen.toNat then
        some (tag password salt time memory threads h.2.1 keyLen)
      else none := by
  have htime : time < 1 ↔ time.toNat = 0 := by
    rw [UInt32.lt_iff_toNat_lt]
    exact Nat.lt_one_iff
  have hthreads : threads < 1 ↔ threads.toNat = 0 := by
    rw [UInt8.lt_iff_toNat_lt]
    exact Nat.lt_one_iff
  simp only [idKey, htime, hthreads]
  by_cases ht : time.toNat = 0
  · rw [if_pos ht, dif_neg (by omega)]
  by_cases hp : threads.toNat = 0
  · rw [if_neg ht, if_pos hp, dif_neg (by omega)]
  rw [if_neg ht, if_neg hp, deriveKey_eq _ _ _ (Nat.pos_of_ne_zero ht) (Nat.pos_of_ne_zero hp)]
  by_cases hk : keyLen.toNat = 0
  · rw [if_pos hk, dif_neg (by omega)]
  · rw [if_neg hk, dif_pos (by omega)]

end LukePanel.Crypto.Argon2.Tag
