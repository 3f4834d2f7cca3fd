import LukePanel.Crypto.Blake2b

/-! # Argon2id

`internal/crypto/argon2/argon2.go`: the key derivation of the panel's passwords. A slice index out
of range and a call on the nil digest of a failed `blake2b.New` panic, which is `none` here. -/
namespace LukePanel.Crypto.Argon2
open LukePanel.Library LukePanel.Crypto.Blake2b

/-- `Version` -/
def version : UInt32 := 0x13

def argon2id : UInt32 := 2

def blockLength : Nat := 128

def syncPoints : UInt32 := 4

abbrev Block := Vector UInt64 blockLength

theorem zero_lt_blockLength : 0 < blockLength := by decide

def zero : Block := Vector.replicate blockLength 0

/-! ## Digests of any length -/

/-- The loop of `blake2bHash`, with `left` bytes of `out` to go: what it adds to `out`, and the
buffer and the digest behind it. -/
def expand (b2 : Digest) (buffer : List UInt8) (left : Nat) : List UInt8 × List UInt8 × Digest :=
  if maxSize < left then
    let b2 := b2.write buffer
    let buffer := b2.sum []
    let (out, last, b2) := expand b2.reset buffer (left - 32)
    (buffer.take 32 ++ out, last, b2)
  else ([], buffer, b2)
termination_by left
decreasing_by
  have : 0 < left := Nat.zero_lt_of_lt ‹_›
  omega

/-- What `blake2bHash` does with the digest `b2` when `out` is longer than a hash. -/
def longHash (b2 : Digest) (outLen : Nat) : Option (List UInt8) :=
  let buffer := b2.sum []
  let (out, last, b2) := expand b2.reset buffer (outLen - 32)
  let rounds := (outLen + 31) / 32 - 2
  let b2 := if 0 < outLen % maxSize then (newDigest (outLen - 32 * rounds) []).toOption else some b2
  b2.map fun b2 => buffer.take 32 ++ out ++ (b2.write last).sum []

def blake2bHash (outLen : Nat) (input : List UInt8) : Option (List UInt8) := do
  let b2 ← (if outLen < maxSize then newDigest outLen [] else new512 []).toOption
  let b2 := (b2.write (LittleEndian.putUint32 outLen.toUInt32)).write input
  if outLen ≤ maxSize then return b2.sum [] else longHash b2 outLen

/-! ## The compression of blocks -/

/-- The closure `g` of `blamka`. -/
def g (a b c d : UInt64) : UInt64 × UInt64 × UInt64 × UInt64 :=
  let a := a + (b + 2 * a.toUInt32.toUInt64 * b.toUInt32.toUInt64)
  let d := d ^^^ a
  let d := d >>> 32 ||| d <<< 32
  let c := c + (d + 2 * c.toUInt32.toUInt64 * d.toUInt32.toUInt64)
  let b := b ^^^ c
  let b := b >>> 24 ||| b <<< 40
  let a := a + (b + 2 * a.toUInt32.toUInt64 * b.toUInt32.toUInt64)
  let d := d ^^^ a
  let d := d >>> 16 ||| d <<< 48
  let c := c + (d + 2 * c.toUInt32.toUInt64 * d.toUInt32.toUInt64)
  let b := b ^^^ c
  let b := b >>> 63 ||| b <<< 1
  (a, b, c, d)

/-- The words of `t` at sixteen places, replaced. -/
def blamka (t : Block) (v : Vector (Fin blockLength) 16) : Block :=
  let (a0, a4, a8, a12) := g t[v[0]] t[v[4]] t[v[8]] t[v[12]]
  let (a1, a5, a9, a13) := g t[v[1]] t[v[5]] t[v[9]] t[v[13]]
  let (a2, a6, a10, a14) := g t[v[2]] t[v[6]] t[v[10]] t[v[14]]
  let (a3, a7, a11, a15) := g t[v[3]] t[v[7]] t[v[11]] t[v[15]]
  let (a0, a5, a10, a15) := g a0 a5 a10 a15
  let (a1, a6, a11, a12) := g a1 a6 a11 a12
  let (a2, a7, a8, a13) := g a2 a7 a8 a13
  let (a3, a4, a9, a14) := g a3 a4 a9 a14
  (v.zip #v[a0, a1, a2, a3, a4, a5, a6, a7, a8, a9, a10, a11, a12, a13, a14, a15]).foldl
    (fun t e => t.set e.1 e.2) t

def row (k : Fin 8) : Vector (Fin blockLength) 16 :=
  Vector.ofFn fun j => ⟨16 * k + j, by have := k.isLt; have := j.isLt; simp [blockLength]; omega⟩

def column (k : Fin 8) : Vector (Fin blockLength) 16 :=
  Vector.ofFn fun j => ⟨16 * (j / 2) + 2 * k + j % 2, by
    have := k.isLt; have := j.isLt; simp [blockLength]; omega⟩

/-- `t` in `processBlockGeneric` after both loops over `blamka`. -/
def permute (t : Block) : Block :=
  let t := (List.finRange 8).foldl (fun t k => blamka t (row k)) t
  (List.finRange 8).foldl (fun t k => blamka t (column k)) t

def xor (a b : Block) : Block := Vector.zipWith (· ^^^ ·) a b

/-- Each word of the inputs is read before that of `out` is written, so that `out` may be one of
the inputs. -/
def processBlock (in1 in2 : Block) : Block := xor (xor in1 in2) (permute (xor in1 in2))

def processBlockXOR (out in1 in2 : Block) : Block := xor out (processBlock in1 in2)

/-! ## The reference block -/

def phi (random m start : UInt64) (lane lanes : UInt32) : UInt32 :=
  let p := random &&& 0xffffffff
  let p := (p * p) >>> 32
  let p := (p * m) >>> 32
  lane * lanes + ((start + m - (p + 1)) % lanes.toUInt64).toUInt32

/-- `m` in `indexAlpha`, how many blocks there are to choose from. -/
def area (segments n slice index : UInt32) (same : Bool) : UInt32 :=
  let m := if same then 3 * segments + index else 3 * segments
  let m := if n = 0 then
      if slice = 0 ∨ same then slice * segments + index else slice * segments
    else m
  if index = 0 ∨ same then m - 1 else m

def indexAlpha (random : UInt64) (lanes segments threads n slice lane index : UInt32) : UInt32 :=
  let refLane := if n = 0 ∧ slice = 0 then lane else (random >>> 32).toUInt32 % threads
  let m := area segments n slice index (lane == refLane)
  let start := if n = 0 then 0 else (slice + 1) % syncPoints * segments
  phi random m.toUInt64 start.toUInt64 refLane lanes

/-! ## A segment -/

/-- The sizes that `processBlocks` is called with and those it computes. -/
structure Sizes where
  memory : UInt32
  time : UInt32
  threads : UInt32

namespace Sizes

def lanes (z : Sizes) : UInt32 := z.memory / z.threads

def segments (z : Sizes) : UInt32 := z.lanes / syncPoints

end Sizes

/-- Which segment a goroutine fills: the arguments of `processSegment`. -/
structure Place where
  n : UInt32
  slice : UInt32
  lane : UInt32

/-- The local variables of `processSegment` that an iteration leaves to the next. -/
structure Local where
  addresses : Block
  input : Block
  index : UInt32
  offset : UInt32

/-- Whether the references of a segment come from a counter instead of the memory. -/
def Place.independent (here : Place) : Prop := here.n = 0 ∧ here.slice < syncPoints / 2

instance (here : Place) : Decidable here.independent := by unfold Place.independent; infer_instance

/-- The addresses of the next 128 blocks. -/
def nextAddresses (l : Local) : Local :=
  let input := l.input.set 6 (l.input[6] + 1)
  let addresses := processBlock input zero
  { l with input, addresses := processBlock addresses zero }

/-- `in` before the addresses are counted. -/
def firstInput (z : Sizes) (here : Place) : Block :=
  if here.independent then
    (((((zero.set 0 here.n.toUInt64).set 1 here.lane.toUInt64).set 2 here.slice.toUInt64).set 3
      z.memory.toUInt64).set 4 z.time.toUInt64).set 5 argon2id.toUInt64
  else zero

/-- `processSegment` up to its loop. -/
def begin (z : Sizes) (here : Place) : Local :=
  let l : Local := ⟨zero, firstInput z here, 0, 0⟩
  let l := if here.n = 0 ∧ here.slice = 0 then nextAddresses { l with index := 2 } else l
  { l with offset := here.lane * z.lanes + here.slice * z.segments + l.index }

def prev (z : Sizes) (here : Place) (l : Local) : UInt32 :=
  if l.index = 0 ∧ here.slice = 0 then l.offset - 1 + z.lanes else l.offset - 1

/-- Every 128 blocks the addresses are renewed. -/
def renew (l : Local) : Local := if l.index.toNat % blockLength = 0 then nextAddresses l else l

/-- `random`, and the addresses where they have been renewed for it. -/
def draw (z : Sizes) (here : Place) (l : Local) (B : Array Block) : Option (UInt64 × Local) :=
  if here.independent then
    let l := renew l
    some (l.addresses.get ⟨l.index.toNat % blockLength, Nat.mod_lt _ (by decide)⟩, l)
  else B[(prev z here l).toNat]?.map fun block => (block[0], l)

/-- One iteration of the loop of `processSegment`. -/
def iterate (z : Sizes) (here : Place) (l : Local) (B : Array Block) : Option (Local × Array Block) := do
  let (random, l) ← draw z here l B
  let newOffset := indexAlpha random z.lanes z.segments z.threads here.n here.slice here.lane l.index
  let out ← B[l.offset.toNat]?
  let in1 ← B[(prev z here l).toNat]?
  let in2 ← B[newOffset.toNat]?
  return ({ l with index := l.index + 1, offset := l.offset + 1 },
    B.setIfInBounds l.offset.toNat (processBlockXOR out in1 in2))

/-- The loop, `left` times. -/
def iterations (z : Sizes) (here : Place) : Nat → Local × Array Block → Option (Local × Array Block)
  | 0, s => some s
  | left + 1, s => (iterate z here s.1 s.2).bind (iterations z here left)

def processSegment (z : Sizes) (B : Array Block) (here : Place) : Option (Array Block) :=
  let l := begin z here
  (iterations z here (z.segments.toNat - l.index.toNat) (l, B)).map (·.2)

/-! ## The memory -/

/-- `processBlocks`, with the goroutines of a slice one after the other. -/
def processSlice (z : Sizes) (B : Array Block) (n slice : UInt32) : Option (Array Block) :=
  (List.range z.threads.toNat).foldlM (fun B lane => processSegment z B ⟨n, slice, lane.toUInt32⟩) B

def processPass (z : Sizes) (B : Array Block) (n : UInt32) : Option (Array Block) :=
  (List.range syncPoints.toNat).foldlM (fun B slice => processSlice z B n slice.toUInt32) B

def processBlocks (z : Sizes) (B : Array Block) : Option (Array Block) :=
  (List.range z.time.toNat).foldlM (fun B n => processPass z B n.toUInt32) B

/-- The bytes of `initHash`, with room for two words behind the digest. -/
def initHash (password salt key data : List UInt8) (time memory threads keyLen : UInt32) :
    Option (List UInt8) := do
  let b2 ← (new512 []).toOption
  let params := LittleEndian.putUint32 threads ++ LittleEndian.putUint32 keyLen ++
    LittleEndian.putUint32 memory ++ LittleEndian.putUint32 time ++
    LittleEndian.putUint32 version ++ LittleEndian.putUint32 argon2id
  let b2 := b2.write params
  let b2 := [password, salt, key, data].foldl (fun b2 bytes =>
    (b2.write (LittleEndian.putUint32 bytes.length.toUInt32)).write bytes) b2
  return b2.sum [] ++ List.replicate 8 0

/-- A block read off its bytes. -/
def blockOf (bytes : List UInt8) : Block :=
  Vector.ofFn fun i => LittleEndian.uint64 (bytes.drop (8 * i))

def bytesOf (b : Block) : List UInt8 := b.toList.flatMap LittleEndian.putUint64

/-- `B[j] = block` -/
def store (B : Array Block) (j : UInt32) (block : Block) : Option (Array Block) :=
  if j.toNat < B.size then some (B.setIfInBounds j.toNat block) else none

/-- The first block of a lane, or the second one. -/
def initBlock (h0 : List UInt8) (lane column : UInt32) : Option Block :=
  (blake2bHash 1024 (h0.take maxSize ++ LittleEndian.putUint32 column ++ LittleEndian.putUint32 lane)).map
    blockOf

def initLane (h0 : List UInt8) (memory threads : UInt32) (B : Array Block) (lane : UInt32) :
    Option (Array Block) := do
  let j := lane * (memory / threads)
  let B ← store B j (← initBlock h0 lane 0)
  store B (j + 1) (← initBlock h0 lane 1)

def initBlocks (h0 : List UInt8) (memory threads : UInt32) : Option (Array Block) :=
  (List.range threads.toNat).foldlM (fun B lane => initLane h0 memory threads B lane.toUInt32)
    (Array.replicate memory.toNat zero)

/-- The last blocks of the lanes before the last are added to that of the last. -/
def lastBlock (B : Array Block) (memory threads : UInt32) : Option Block := do
  let lanes := memory / threads
  let last ← B[(memory - 1).toNat]?
  (List.range (threads - 1).toNat).foldlM (fun last lane => do
    let value ← B[(lane.toUInt32 * lanes + lanes - 1).toNat]?
    return xor last value) last

def extractKey (B : Array Block) (memory threads keyLen : UInt32) : Option (List UInt8) := do
  let last ← lastBlock B memory threads
  blake2bHash keyLen.toNat (bytesOf last)

/-- The memory rounded down to whole segments, and at least two blocks for each. -/
def roundMemory (memory threads : UInt32) : UInt32 :=
  let memory := memory / (syncPoints * threads) * (syncPoints * threads)
  if memory < 2 * syncPoints * threads then 2 * syncPoints * threads else memory

/-- `IDKey` behind its checks. -/
def deriveKey (password salt : List UInt8) (time memory threads keyLen : UInt32) :
    Option (List UInt8) := do
  let h0 ← initHash password salt [] [] time memory threads keyLen
  let memory := roundMemory memory threads
  let B ← initBlocks h0 memory threads
  let B ← processBlocks ⟨memory, time, threads⟩ B
  extractKey B memory threads keyLen

/-- `IDKey` -/
def idKey (password salt : List UInt8) (time memory : UInt32) (threads : UInt8) (keyLen : UInt32) :
    Option (List UInt8) :=
  if time < 1 then none
  else if threads < 1 then none
  else deriveKey password salt time memory threads.toUInt32 keyLen

end LukePanel.Crypto.Argon2
