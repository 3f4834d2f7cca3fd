import LukePanel.Crypto.Blake2bReference

/-! # Digests over their calls

Whatever pieces a message is written in, and whatever was written and summed before, `Sum` gives
the hash of what was written since the digest was made or reset. -/
namespace LukePanel.Crypto.Blake2b.Stream
open LukePanel.Library LukePanel.Crypto.Blake2b.Reference

variable {d : Digest} {size : Nat} {key message : List UInt8}

/-! ## Bytes copied into a block -/

theorem toList_copyAt {n start : Nat} (dst : Vector UInt8 n) {src : List UInt8}
    (h : start + src.length ≤ n) :
    (copyAt dst start src).toList =
      dst.toList.take start ++ src ++ dst.toList.drop (start + src.length) := by
  apply List.ext_getElem
  · simp
    omega
  · intro i hi hi'
    simp only [copyAt, Vector.toList_ofFn, List.getElem_ofFn]
    grind

theorem take_copyAt {n start : Nat} (dst : Vector UInt8 n) {src : List UInt8}
    (h : start + src.length ≤ n) :
    (copyAt dst start src).toList.take (start + src.length) = dst.toList.take start ++ src := by
  have hlen : (dst.toList.take start ++ src).length = start + src.length := by
    simp
    omega
  rw [toList_copyAt dst h, List.take_left' hlen]

/-- Bytes at the start of a block of zeros. -/
theorem copyAt_zeros {src : List UInt8} (h : src.length ≤ blockSize) :
    (copyAt (Vector.replicate blockSize 0) 0 src).toList = fill src := by
  rw [toList_copyAt _ (by omega), fill]
  simp

/-- `wholeLength` is the only way to leave one to `blockSize` bytes behind whole blocks. -/
theorem eq_wholeLength {length blocks rest : Nat} (hle : rest ≤ blockSize)
    (hpos : 0 < length → 0 < rest) (hsum : blockSize * blocks + rest = length) :
    blockSize * blocks = wholeLength length := by
  grind [wholeLength, blockSize]

/-! ## What a digest holds -/

/-- A digest that has compressed to the state and the count of `s` and holds its bytes back. -/
structure At (d : Digest) (s : (Vector UInt64 8 × Nat) × List UInt8) : Prop where
  h_eq : d.h = s.1.1
  c_eq : d.c = counter s.1.2
  held : d.block.toList.take d.offset = s.2

theorem At.length_held {s : (Vector UInt64 8 × Nat) × List UInt8} (hat : At d s) :
    s.2.length = d.offset := by
  have hle := d.offset_le
  rw [← hat.held, List.length_take, Vector.length_toList]
  omega

/-- The bytes behind the blocks that `Write` compresses are those that are held back. -/
theorem cut_eq_wholeLength (p : List UInt8) :
    p.take (wholeLength p.length) = (HeldBlocks.cut blockSize p).1.flatten ∧
      p.drop (wholeLength p.length) = (HeldBlocks.cut blockSize p).2 := by
  have hflat := HeldBlocks.flatten_cut (B := blockSize) p
  have hlen := HeldBlocks.length_flatten_cut (B := blockSize) p
  have hpos : 0 < p.length → 0 < (HeldBlocks.cut blockSize p).2.length := fun h =>
    List.length_pos_of_ne_nil (HeldBlocks.cut_ne_nil (List.ne_nil_of_length_pos h))
  have hsum := congrArg List.length hflat
  rw [List.length_append, hlen] at hsum
  have hwhole := eq_wholeLength (HeldBlocks.length_cut_le (by decide)) hpos hsum
  rw [← hwhole, ← hlen]
  generalize HeldBlocks.cut blockSize p = s at hflat
  rw [← hflat, List.take_left' rfl, List.drop_left' rfl]
  exact ⟨rfl, rfl⟩

theorem At.writeBlocks {s : Vector UInt64 8 × Nat} (hh : d.h = s.1) (hc : d.c = counter s.2)
    (p : List UInt8) : At (d.writeBlocks p) (HeldBlocks.absorb blockSize chain s p) := by
  obtain ⟨htake, hdrop⟩ := cut_eq_wholeLength p
  have hlen : (p.drop (wholeLength p.length)).length ≤ blockSize := by
    rw [List.length_drop]
    exact sub_wholeLength_le _
  have hblocks (whole) : hashBlocks d.h d.c 0 (p.take (wholeLength p.length)) whole =
      (((HeldBlocks.cut blockSize p).1.foldl chain s).1,
        counter ((HeldBlocks.cut blockSize p).1.foldl chain s).2) := by
    rw [hh, hc]
    exact hashBlocks_flatten (fun _ => HeldBlocks.length_of_mem_cut) s htake whole
  refine ⟨?_, ?_, ?_⟩
  · simp only [Digest.writeBlocks, hblocks, HeldBlocks.absorb]
  · simp only [Digest.writeBlocks, hblocks, HeldBlocks.absorb]
  · have hheld := take_copyAt d.block (by omega : 0 + (p.drop (wholeLength p.length)).length ≤ blockSize)
    simpa only [Digest.writeBlocks, HeldBlocks.absorb, hdrop, Nat.zero_add, List.take_zero,
      List.nil_append] using hheld

/-- Writing absorbs what was held back together with what comes. -/
theorem At.write {s : (Vector UInt64 8 × Nat) × List UInt8} (hat : At d s) (p : List UInt8) :
    At (d.write p) (HeldBlocks.absorb blockSize chain s.1 (s.2 ++ p)) := by
  have hlen := hat.length_held
  have hle := d.offset_le
  by_cases hpos : 0 < d.offset
  · rw [Digest.write, if_pos hpos]
    by_cases hfits : p.length ≤ blockSize - d.offset
    · -- the block that was begun is at most filled
      rw [dif_pos hfits, HeldBlocks.absorb_of_le _ _ (by rw [List.length_append]; omega)]
      refine ⟨hat.h_eq, hat.c_eq, ?_⟩
      exact (take_copyAt d.block (by omega)).trans (by rw [hat.held])
    · rw [dif_neg hfits]
      have htake : (p.take (blockSize - d.offset)).length = blockSize - d.offset :=
        List.length_take_of_le (by omega)
      have hblock : (copyAt d.block d.offset (p.take (blockSize - d.offset))).toList =
          s.2 ++ p.take (blockSize - d.offset) := by
        rw [toList_copyAt _ (by omega), htake, hat.held, List.drop_of_length_le (by simp; omega),
          List.append_nil]
      have hfull : (s.2 ++ p.take (blockSize - d.offset)).length = blockSize := by
        rw [List.length_append]
        omega
      have hne : p.drop (blockSize - d.offset) ≠ [] := List.drop_eq_nil_iff.not.mpr (by omega)
      have habsorb := HeldBlocks.absorb_cons (by decide) chain s.1 hfull hne
      rw [List.append_assoc, List.take_append_drop] at habsorb
      have hflat : (s.2 ++ p.take (blockSize - d.offset)) = [s.2 ++ p.take (blockSize - d.offset)].flatten := by
        simp
      have hhash (whole) := hashBlocks_flatten (fun _ hb => (List.mem_singleton.mp hb) ▸ hfull) s.1
        (hblock.trans hflat) whole
      rw [habsorb]
      refine At.writeBlocks ?_ ?_ _
      · simp only [hat.h_eq, hat.c_eq, hhash]
        rfl
      · simp only [hat.h_eq, hat.c_eq, hhash]
        rfl
  · have hnil : s.2 = [] := List.eq_nil_of_length_eq_zero (by omega)
    rw [Digest.write, if_neg hpos, hnil, List.nil_append]
    exact At.writeBlocks hat.h_eq hat.c_eq p

/-- The last block is filled up with zeros, and the count is that of all bytes. -/
theorem At.finalize {s : (Vector UInt64 8 × Nat) × List UInt8} (hat : At d s) :
    d.finalize = (compress s.1.1 (fill s.2) (s.1.2 + s.2.length) true).toList.flatMap
      LittleEndian.putUint64 := by
  have hlen := hat.length_held
  have hle := d.offset_le
  have hheld : s.2.length ≤ blockSize := by omega
  have hfill : (copyAt (Vector.replicate blockSize 0) 0 (d.block.toList.take s.2.length)).toList =
      fill s.2 ++ [] := by
    rw [hlen, hat.held, copyAt_zeros hheld, List.append_nil]
  have hblock : (fill s.2).length = blockSize := by
    simp only [fill, List.length_append, List.length_replicate]
    omega
  have hcount := countBlock_sub s.1.2 d.offset hle
  rw [← hat.c_eq, ← hlen] at hcount
  have hnil : blockSize ∣ ([] : List UInt8).length := Nat.dvd_zero _
  have hlast (whole) := hashBlocks_append hblock s.1.1 hcount true whole hnil
  simp only [if_true, hashBlocks_nil] at hlast
  simp only [Digest.finalize, hfill, hat.h_eq, ← hlen, hlast]

/-! ## A digest between its calls -/

/-- A digest that `message` was written to since it was made or reset. -/
structure Holds (d : Digest) (size : Nat) (key message : List UInt8) : Prop where
  size_eq : d.size = size
  keyLen_eq : d.keyLen = key.length
  key_eq : d.key.toList = fill key
  key_le : key.length ≤ maxSize
  absorbed : At d (HeldBlocks.absorb blockSize chain (start size key.length, 0) (input key message))

@[simp] theorem size_writeBlocks (d : Digest) (p : List UInt8) : (d.writeBlocks p).size = d.size := rfl

@[simp] theorem keyLen_writeBlocks (d : Digest) (p : List UInt8) :
    (d.writeBlocks p).keyLen = d.keyLen := rfl

@[simp] theorem key_writeBlocks (d : Digest) (p : List UInt8) : (d.writeBlocks p).key = d.key := rfl

/-- Writing changes neither the size of the digest nor its key. -/
theorem write_frame (d : Digest) (p : List UInt8) :
    (d.write p).size = d.size ∧ (d.write p).keyLen = d.keyLen ∧ (d.write p).key = d.key := by
  by_cases hpos : 0 < d.offset
  · by_cases hfits : p.length ≤ blockSize - d.offset
    · simp [Digest.write, hpos, hfits]
    · simp [Digest.write, hpos, hfits]
  · simp [Digest.write, hpos]

theorem Holds.write (h : Holds d size key message) (p : List UInt8) :
    Holds (d.write p) size key (message ++ p) := by
  obtain ⟨hsize, hkeyLen, hkey⟩ := write_frame d p
  refine ⟨hsize.trans h.size_eq, hkeyLen.trans h.keyLen_eq, hkey ▸ h.key_eq, h.key_le, ?_⟩
  have hinput : input key (message ++ p) = input key message ++ p := by
    unfold input
    split
    · rfl
    · exact (List.append_assoc _ _ _).symm
  rw [hinput, HeldBlocks.absorb_append (by decide)]
  exact h.absorbed.write p

theorem Holds.of_reset (hsize : d.size = size) (hkeyLen : d.keyLen = key.length)
    (hkey : d.key.toList = fill key) (hle : key.length ≤ maxSize) : Holds d.reset size key [] := by
  have hstart : start size key.length = iv.set 0 (iv[0] ^^^ (d.size.toUInt64 |||
      d.keyLen.toUInt64 <<< 8 ||| (1 : UInt64) <<< 16 ||| (1 : UInt64) <<< 24)) := by
    rw [hsize, hkeyLen, start]
    rfl
  by_cases hpos : 0 < d.keyLen
  · have hne : key ≠ [] := List.ne_nil_of_length_pos (hkeyLen ▸ hpos)
    have hfill : (fill key).length = blockSize := by rw [← hkey, Vector.length_toList]
    rw [Digest.reset, if_pos hpos]
    refine ⟨hsize, hkeyLen, hkey, hle, ?_⟩
    rw [input, if_neg hne, List.append_nil, HeldBlocks.absorb_of_le _ _ (Nat.le_of_eq hfill)]
    have hheld : d.key.toList.take blockSize = fill key := by
      rw [hkey, List.take_of_length_le (Nat.le_of_eq hfill)]
    exact ⟨hstart.symm, counter_zero.symm, hheld⟩
  · have hnil : key = [] := List.eq_nil_of_length_eq_zero (by omega)
    rw [Digest.reset, if_neg hpos]
    refine ⟨hsize, hkeyLen, hkey, hle, ?_⟩
    rw [input, if_pos hnil, HeldBlocks.absorb_of_le _ _ (Nat.zero_le _)]
    exact ⟨hstart.symm, counter_zero.symm, List.take_zero⟩

theorem Holds.reset (h : Holds d size key message) : Holds d.reset size key [] :=
  .of_reset h.size_eq h.keyLen_eq h.key_eq h.key_le

theorem Holds.of_new (h : newDigest size key = .ok d) : Holds d size key [] := by
  unfold newDigest at h
  split at h
  · cases h
  · split at h
    · cases h
    · rename_i hkey
      have hle : key.length ≤ maxSize := by omega
      cases h
      exact .of_reset rfl rfl (copyAt_zeros (Nat.le_trans hle (by decide))) hle

/-- `Sum` appends the hash of what was written, and the digest can be written to as before. -/
theorem Holds.sum_eq (h : Holds d size key message) (already : List UInt8) :
    d.sum already = already ++ blake2b size key message := by
  have hcount : (HeldBlocks.absorb blockSize chain (start size key.length, 0) (input key message)).1.2 +
      (HeldBlocks.absorb blockSize chain (start size key.length, 0) (input key message)).2.length =
      (input key message).length := by
    have hflat := congrArg List.length (HeldBlocks.flatten_cut (B := blockSize) (input key message))
    rw [List.length_append, HeldBlocks.length_flatten_cut] at hflat
    simp only [HeldBlocks.absorb, foldl_chain_count]
    omega
  rw [Digest.sum, h.absorbed.finalize, hcount, h.size_eq]
  rfl

theorem Holds.new (hpos : 0 < size) (hsize : size ≤ maxSize) (hkey : key.length ≤ maxSize) :
    ∃ d, newDigest size key = .ok d ∧ Holds d size key [] := by
  cases hd : newDigest size key with
  | error message =>
    rw [newDigest, dif_neg (by omega), if_neg (by omega)] at hd
    cases hd
  | ok d => exact ⟨d, rfl, .of_new hd⟩

/-- The calls that the users of a digest make. -/
inductive Call where
  | write (p : List UInt8)
  | sum (already : List UInt8)
  | reset

/-- The digest after a list of calls, and what the sums among them gave. -/
def run (d : Digest) : List Call → Digest × List (List UInt8)
  | [] => (d, [])
  | .write p :: calls => run (d.write p) calls
  | .sum already :: calls =>
    let (d', sums) := run d calls
    (d', d.sum already :: sums)
  | .reset :: calls => run d.reset calls

/-- What the sums are of, when `message` was written before. -/
def sums (size : Nat) (key message : List UInt8) : List Call → List (List UInt8)
  | [] => []
  | .write p :: calls => sums size key (message ++ p) calls
  | .sum already :: calls => (already ++ blake2b size key message) :: sums size key message calls
  | .reset :: calls => sums size key [] calls

theorem Holds.run_eq (h : Holds d size key message) (calls : List Call) :
    (run d calls).2 = sums size key message calls := by
  induction calls generalizing d message with
  | nil => rfl
  | cons call calls ih =>
    cases call with
    | write p => exact ih (h.write p)
    | sum already =>
      calc (run d (.sum already :: calls)).2
          = d.sum already :: (run d calls).2 := rfl
        _ = sums size key message (.sum already :: calls) := by rw [h.sum_eq, ih h]; rfl
    | reset => exact ih h.reset

/-- Over any calls, each sum of a digest is the hash of what was written to it since it was made
or last reset, in whatever pieces that was. -/
theorem sums_of_new (h : newDigest size key = .ok d) (calls : List Call) :
    (run d calls).2 = sums size key [] calls := (Holds.of_new h).run_eq calls

theorem sums_of_new_keyed :
    ∃ d, newDigest 32 [1, 2, 3] = .ok d ∧
      (run d [.write [4], .sum [], .write [5, 6], .sum [7], .reset, .sum []]).2 =
        [blake2b 32 [1, 2, 3] [4], 7 :: blake2b 32 [1, 2, 3] [4, 5, 6], blake2b 32 [1, 2, 3] []] := by
  obtain ⟨d, hd, _⟩ := @Holds.new 32 [1, 2, 3] (by decide) (by decide) (by decide)
  exact ⟨d, hd, (sums_of_new hd _).trans (by simp [sums])⟩

end LukePanel.Crypto.Blake2b.Stream
