import LukePanel.Library.LittleEndian
import Mathlib.Tactic.Common

/-! # BLAKE2b

`internal/crypto/blake2b/blake2b.go`, the hash that Argon2id is built from: a digest that is
written to in pieces, compresses every block that something follows, and is summed without being
changed. -/
namespace LukePanel.Crypto.Blake2b
open LukePanel.Library

/-- `BlockSize` -/
def blockSize : Nat := 128

/-- `Size` -/
def maxSize : Nat := 64

def iv : Vector UInt64 8 :=
  #v[0x6a09e667f3bcc908, 0xbb67ae8584caa73b, 0x3c6ef372fe94f82b, 0xa54ff53a5f1d36f1,
    0x510e527fade682d1, 0x9b05688c2b3e6c1f, 0x1f83d9abfb41bd6b, 0x5be0cd19137e2179]

def precomputed : Vector (Vector (Fin 16) 16) 12 :=
  #v[#v[0, 2, 4, 6, 1, 3, 5, 7, 8, 10, 12, 14, 9, 11, 13, 15],
    #v[14, 4, 9, 13, 10, 8, 15, 6, 1, 0, 11, 5, 12, 2, 7, 3],
    #v[11, 12, 5, 15, 8, 0, 2, 13, 10, 3, 7, 9, 14, 6, 1, 4],
    #v[7, 3, 13, 11, 9, 1, 12, 14, 2, 5, 4, 15, 6, 10, 0, 8],
    #v[9, 5, 2, 10, 0, 7, 4, 15, 14, 11, 6, 3, 1, 12, 8, 13],
    #v[2, 6, 0, 8, 12, 10, 11, 3, 4, 7, 15, 1, 13, 5, 14, 9],
    #v[12, 1, 14, 4, 5, 15, 13, 10, 0, 6, 9, 8, 7, 3, 2, 11],
    #v[13, 7, 12, 3, 11, 14, 1, 9, 5, 15, 8, 2, 0, 4, 6, 10],
    #v[6, 14, 11, 0, 15, 9, 3, 8, 12, 13, 1, 10, 2, 7, 4, 5],
    #v[10, 8, 7, 1, 2, 4, 6, 5, 15, 9, 3, 13, 11, 14, 12, 0],
    #v[0, 2, 4, 6, 1, 3, 5, 7, 8, 10, 12, 14, 9, 11, 13, 15],
    #v[14, 4, 9, 13, 10, 8, 15, 6, 1, 0, 11, 5, 12, 2, 7, 3]]

/-- `bits.RotateLeft64` -/
def rotateLeft64 (x : UInt64) (k : Int) : UInt64 :=
  let s := (k % 64).toNat.toUInt64
  x <<< s ||| x >>> (64 - s)

/-- The sixteen local variables of `hashBlocks`. -/
structure Work where
  v0 : UInt64
  v1 : UInt64
  v2 : UInt64
  v3 : UInt64
  v4 : UInt64
  v5 : UInt64
  v6 : UInt64
  v7 : UInt64
  v8 : UInt64
  v9 : UInt64
  v10 : UInt64
  v11 : UInt64
  v12 : UInt64
  v13 : UInt64
  v14 : UInt64
  v15 : UInt64

/-- The body of the loop over `precomputed`, assignment by assignment; `w k` is `m[s[k]]`. -/
def mixRound (w : Fin 16 → UInt64) : Work → Work
  | ⟨v0, v1, v2, v3, v4, v5, v6, v7, v8, v9, v10, v11, v12, v13, v14, v15⟩ =>
    let v0 := v0 + (w 0 + v4)
    let v12 := v12 ^^^ v0
    let v12 := rotateLeft64 v12 (-32)
    let v8 := v8 + v12
    let v4 := v4 ^^^ v8
    let v4 := rotateLeft64 v4 (-24)
    let v1 := v1 + (w 1 + v5)
    let v13 := v13 ^^^ v1
    let v13 := rotateLeft64 v13 (-32)
    let v9 := v9 + v13
    let v5 := v5 ^^^ v9
    let v5 := rotateLeft64 v5 (-24)
    let v2 := v2 + (w 2 + v6)
    let v14 := v14 ^^^ v2
    let v14 := rotateLeft64 v14 (-32)
    let v10 := v10 + v14
    let v6 := v6 ^^^ v10
    let v6 := rotateLeft64 v6 (-24)
    let v3 := v3 + (w 3 + v7)
    let v15 := v15 ^^^ v3
    let v15 := rotateLeft64 v15 (-32)
    let v11 := v11 + v15
    let v7 := v7 ^^^ v11
    let v7 := rotateLeft64 v7 (-24)
    let v0 := v0 + (w 4 + v4)
    let v12 := v12 ^^^ v0
    let v12 := rotateLeft64 v12 (-16)
    let v8 := v8 + v12
    let v4 := v4 ^^^ v8
    let v4 := rotateLeft64 v4 (-63)
    let v1 := v1 + (w 5 + v5)
    let v13 := v13 ^^^ v1
    let v13 := rotateLeft64 v13 (-16)
    let v9 := v9 + v13
    let v5 := v5 ^^^ v9
    let v5 := rotateLeft64 v5 (-63)
    let v2 := v2 + (w 6 + v6)
    let v14 := v14 ^^^ v2
    let v14 := rotateLeft64 v14 (-16)
    let v10 := v10 + v14
    let v6 := v6 ^^^ v10
    let v6 := rotateLeft64 v6 (-63)
    let v3 := v3 + (w 7 + v7)
    let v15 := v15 ^^^ v3
    let v15 := rotateLeft64 v15 (-16)
    let v11 := v11 + v15
    let v7 := v7 ^^^ v11
    let v7 := rotateLeft64 v7 (-63)
    let v0 := v0 + (w 8 + v5)
    let v15 := v15 ^^^ v0
    let v15 := rotateLeft64 v15 (-32)
    let v10 := v10 + v15
    let v5 := v5 ^^^ v10
    let v5 := rotateLeft64 v5 (-24)
    let v1 := v1 + (w 9 + v6)
    let v12 := v12 ^^^ v1
    let v12 := rotateLeft64 v12 (-32)
    let v11 := v11 + v12
    let v6 := v6 ^^^ v11
    let v6 := rotateLeft64 v6 (-24)
    let v2 := v2 + (w 10 + v7)
    let v13 := v13 ^^^ v2
    let v13 := rotateLeft64 v13 (-32)
    let v8 := v8 + v13
    let v7 := v7 ^^^ v8
    let v7 := rotateLeft64 v7 (-24)
    let v3 := v3 + (w 11 + v4)
    let v14 := v14 ^^^ v3
    let v14 := rotateLeft64 v14 (-32)
    let v9 := v9 + v14
    let v4 := v4 ^^^ v9
    let v4 := rotateLeft64 v4 (-24)
    let v0 := v0 + (w 12 + v5)
    let v15 := v15 ^^^ v0
    let v15 := rotateLeft64 v15 (-16)
    let v10 := v10 + v15
    let v5 := v5 ^^^ v10
    let v5 := rotateLeft64 v5 (-63)
    let v1 := v1 + (w 13 + v6)
    let v12 := v12 ^^^ v1
    let v12 := rotateLeft64 v12 (-16)
    let v11 := v11 + v12
    let v6 := v6 ^^^ v11
    let v6 := rotateLeft64 v6 (-63)
    let v2 := v2 + (w 14 + v7)
    let v13 := v13 ^^^ v2
    let v13 := rotateLeft64 v13 (-16)
    let v8 := v8 + v13
    let v7 := v7 ^^^ v8
    let v7 := rotateLeft64 v7 (-63)
    let v3 := v3 + (w 15 + v4)
    let v14 := v14 ^^^ v3
    let v14 := rotateLeft64 v14 (-16)
    let v9 := v9 + v14
    let v4 := v4 ^^^ v9
    let v4 := rotateLeft64 v4 (-63)
    ⟨v0, v1, v2, v3, v4, v5, v6, v7, v8, v9, v10, v11, v12, v13, v14, v15⟩

def hashRound (m : Vector UInt64 16) (s : Vector (Fin 16) 16) : Work → Work :=
  mixRound fun k => m[s[k]]

/-- The variables before the rounds. -/
def initialWork (h : Vector UInt64 8) (c0 c1 flag : UInt64) : Work :=
  ⟨h[0], h[1], h[2], h[3], h[4], h[5], h[6], h[7], iv[0], iv[1], iv[2], iv[3], iv[4] ^^^ c0,
    iv[5] ^^^ c1, iv[6] ^^^ flag, iv[7]⟩

/-- The state after the rounds. -/
def feedForward (h : Vector UInt64 8) (v : Work) : Vector UInt64 8 :=
  #v[h[0] ^^^ (v.v0 ^^^ v.v8), h[1] ^^^ (v.v1 ^^^ v.v9), h[2] ^^^ (v.v2 ^^^ v.v10),
    h[3] ^^^ (v.v3 ^^^ v.v11), h[4] ^^^ (v.v4 ^^^ v.v12), h[5] ^^^ (v.v5 ^^^ v.v13),
    h[6] ^^^ (v.v6 ^^^ v.v14), h[7] ^^^ (v.v7 ^^^ v.v15)]

/-- The words of a block, whose bytes are the first ones of `blocks`. -/
def words (blocks : List UInt8) : Vector UInt64 16 :=
  Vector.ofFn fun j => LittleEndian.uint64 (blocks.drop (8 * j))

/-- What `hashBlocks` makes of one block. -/
def hashBlock (h : Vector UInt64 8) (c : UInt64 × UInt64) (flag : UInt64) (blocks : List UInt8) :
    Vector UInt64 8 :=
  feedForward h (precomputed.toList.foldl (fun v s => hashRound (words blocks) s v)
    (initialWork h c.1 c.2 flag))

/-- The counter after one more block. -/
def countBlock (c : UInt64 × UInt64) : UInt64 × UInt64 :=
  let c0 := c.1 + blockSize.toUInt64
  (c0, if c0 < blockSize.toUInt64 then c.2 + 1 else c.2)

/-- Reading the words of a last block that is cut short panics, so whole blocks are asked for. -/
def hashBlocks (h : Vector UInt64 8) (c : UInt64 × UInt64) (flag : UInt64) (blocks : List UInt8)
    (whole : blockSize ∣ blocks.length) : Vector UInt64 8 × (UInt64 × UInt64) :=
  if hne : blocks = [] then (h, c)
  else
    let c := countBlock c
    hashBlocks (hashBlock h c flag blocks) c flag (blocks.drop blockSize)
      (by rw [List.length_drop]; exact Nat.dvd_sub whole (Nat.dvd_refl _))
termination_by blocks.length
decreasing_by
  have hpos := List.length_pos_of_ne_nil hne
  rw [List.length_drop, blockSize]
  omega

/-! ## The digest -/

/-- `copy(dst[start:], src)` -/
def copyAt {n : Nat} (dst : Vector UInt8 n) (start : Nat) (src : List UInt8) : Vector UInt8 n :=
  Vector.ofFn fun i => if i < start then dst[i] else src.getD (i - start) dst[i]

/-- With these bounds no slice that a method takes is out of range. -/
structure Digest where
  h : Vector UInt64 8
  c : UInt64 × UInt64
  size : Nat
  block : Vector UInt8 blockSize
  offset : Nat
  key : Vector UInt8 blockSize
  keyLen : Nat
  size_le : size ≤ maxSize
  offset_le : offset ≤ blockSize

/-- How much of what is left `Write` compresses, `nn`: whole blocks, but not the last byte. -/
def wholeLength (length : Nat) : Nat :=
  if blockSize < length then
    let nn := length / blockSize * blockSize
    if length = nn then nn - blockSize else nn
  else 0

theorem dvd_wholeLength (length : Nat) : blockSize ∣ wholeLength length := by
  simp only [wholeLength]
  split
  · split
    · exact Nat.dvd_sub (Nat.dvd_mul_left _ _) (Nat.dvd_refl _)
    · exact Nat.dvd_mul_left _ _
  · exact Nat.dvd_zero _

theorem wholeLength_le (length : Nat) : wholeLength length ≤ length := by
  grind [wholeLength, blockSize]

theorem sub_wholeLength_le (length : Nat) : length - wholeLength length ≤ blockSize := by
  grind [wholeLength, blockSize]

namespace Digest

def reset (d : Digest) : Digest :=
  let h0 := iv[0] ^^^ (d.size.toUInt64 ||| d.keyLen.toUInt64 <<< 8 ||| (1 : UInt64) <<< 16 |||
    (1 : UInt64) <<< 24)
  let d : Digest := { d with h := iv.set 0 h0, c := (0, 0), offset := 0, offset_le := Nat.zero_le _ }
  if 0 < d.keyLen then { d with block := d.key, offset := blockSize, offset_le := Nat.le_refl _ }
  else d

/-- `Write` from where no block is begun. -/
def writeBlocks (d : Digest) (p : List UInt8) : Digest :=
  let nn := wholeLength p.length
  let hc := hashBlocks d.h d.c 0 (p.take nn) (by
    rw [List.length_take_of_le (wholeLength_le _)]
    exact dvd_wholeLength _)
  { d with
    h := hc.1, c := hc.2, block := copyAt d.block 0 (p.drop nn), offset := (p.drop nn).length
    offset_le := by rw [List.length_drop]; exact sub_wholeLength_le _ }

def write (d : Digest) (p : List UInt8) : Digest :=
  if 0 < d.offset then
    let remaining := blockSize - d.offset
    if _h : p.length ≤ remaining then
      { d with
        block := copyAt d.block d.offset p, offset := d.offset + p.length
        offset_le := by have := d.offset_le; omega }
    else
      let block := copyAt d.block d.offset (p.take remaining)
      let hc := hashBlocks d.h d.c 0 block.toList (by rw [Vector.length_toList])
      writeBlocks { d with h := hc.1, c := hc.2, block, offset := 0, offset_le := Nat.zero_le _ }
        (p.drop remaining)
  else writeBlocks d p

/-- The counter is first taken back by what is missing of the last block. -/
def finalize (d : Digest) : List UInt8 :=
  let block := copyAt (Vector.replicate blockSize 0) 0 (d.block.toList.take d.offset)
  let remaining := (blockSize - d.offset).toUInt64
  let c1 := if d.c.1 < remaining then d.c.2 - 1 else d.c.2
  let hc := hashBlocks d.h (d.c.1 - remaining, c1) (~~~ 0) block.toList (by rw [Vector.length_toList])
  hc.1.toList.flatMap LittleEndian.putUint64

/-- `Sum`, which appends to the bytes it is given. -/
def sum (d : Digest) (already : List UInt8) : List UInt8 := already ++ d.finalize.take d.size

end Digest

def newDigest (hashSize : Nat) (key : List UInt8) : Except String Digest :=
  if _h : hashSize < 1 ∨ maxSize < hashSize then .error "blake2b: invalid hash size"
  else if maxSize < key.length then .error "blake2b: invalid key size"
  else .ok (Digest.reset
    { h := Vector.replicate 8 0, c := (0, 0), size := hashSize
      block := Vector.replicate blockSize 0, offset := 0
      key := copyAt (Vector.replicate blockSize 0) 0 key, keyLen := key.length
      size_le := by omega, offset_le := Nat.zero_le _ })

/-- `New512` -/
def new512 (key : List UInt8) : Except String Digest := newDigest maxSize key

end LukePanel.Crypto.Blake2b
