import LukePanel.Crypto.Argon2Index
import LukePanel.Crypto.VariableHash

/-! # What Argon2id is

The tag by its definition: a matrix of blocks, a row for each lane, that is computed in passes. A
block is made of the one before it in its lane and of another one, which is taken as it is in the
same pass if that was computed earlier and as the pass before left it otherwise. -/
namespace LukePanel.Crypto.Argon2.Reference
open LukePanel.Library LukePanel.Crypto.Blake2b.Reference LukePanel.Crypto.VariableHash

/-- What the matrix is computed from: its first two columns, and the words that choose the
references in the first half of the first pass, by slice, lane and index. -/
structure Source where
  first : Nat → Nat → Block
  address : Nat → Nat → Nat → UInt64

/-- Whether the block in `column` of `lane` is computed after that in `column'` of `lane'`. -/
def Shape.Earlier (S : Shape) (lane' column' lane column : Nat) : Prop :=
  column' < column ∧ (lane' = lane ∨ column' < column / S.segment * S.segment)

instance (S : Shape) (lane' column' lane column : Nat) :
    Decidable (S.Earlier lane' column' lane column) := by unfold Shape.Earlier; infer_instance

/-- The block in `column` of `lane` after pass `n`. -/
def cell (S : Shape) (src : Source) (n lane column : Nat) : Block :=
  if hfirst : n = 0 ∧ column < 2 then src.first lane column
  else
    let previous := if _hcolumn : column = 0 then cell S src (n - 1) lane (S.columns - 1)
      else cell S src n lane (column - 1)
    let slice := column / S.segment
    let index := column % S.segment
    let random := if n = 0 ∧ slice < 2 then src.address slice lane index
      else previous.get ⟨0, zero_lt_blockLength⟩
    let lane' := S.refLane n slice lane random.toNat
    let column' := S.refColumn n slice lane index random.toNat
    let reference := if _hearlier : S.Earlier lane' column' lane column then cell S src n lane' column'
      else if _hn : n = 0 then zero else cell S src (n - 1) lane' column'
    xor (if _hn : n = 0 then zero else cell S src (n - 1) lane column) (processBlock previous reference)
termination_by (n, column)
decreasing_by
  · exact Prod.Lex.left _ _ (by omega)
  · exact Prod.Lex.right _ (by omega)
  · exact Prod.Lex.right _ _hearlier.1
  · exact Prod.Lex.left _ _ (by omega)
  · exact Prod.Lex.left _ _ (by omega)

/-- The block that a batch of addresses is computed from. -/
def counterBlock (S : Shape) (time : UInt32) (slice lane count : Nat) : Block :=
  Vector.ofFn fun k => [0, lane.toUInt64, slice.toUInt64, (S.lanes * S.columns).toUInt64,
    time.toUInt64, 2, count.toUInt64].getD k 0

def addressBlock (S : Shape) (time : UInt32) (slice lane count : Nat) : Block :=
  processBlock (processBlock (counterBlock S time slice lane count) zero) zero

/-- A byte string behind its length. -/
def field (bytes : List UInt8) : List UInt8 :=
  LittleEndian.putUint32 bytes.length.toUInt32 ++ bytes

/-- The hash of the parameters and the inputs. -/
def seed (password salt key data : List UInt8) (time memory threads keyLen : UInt32) : List UInt8 :=
  blake2b 64 [] (LittleEndian.putUint32 threads ++ LittleEndian.putUint32 keyLen ++
    LittleEndian.putUint32 memory ++ LittleEndian.putUint32 time ++ LittleEndian.putUint32 0x13 ++
    LittleEndian.putUint32 2 ++ field password ++ field salt ++ field key ++ field data)

def sourceOf (S : Shape) (time : UInt32) (seed : List UInt8) : Source where
  first lane column := blockOf (variableHash 1024 (seed ++ LittleEndian.putUint32 column.toUInt32 ++
    LittleEndian.putUint32 lane.toUInt32))
  address slice lane index :=
    (addressBlock S time slice lane (index / 128 + 1)).get ⟨index % 128, Nat.mod_lt _ (by decide)⟩

/-- The last column, added up. -/
def lastColumn (S : Shape) (src : Source) (n : Nat) : Block :=
  (List.range S.lanes).foldl (fun sum lane => xor sum (cell S src n lane (S.columns - 1))) zero

/-- The tag of `keyLen` bytes. -/
def tag (password salt : List UInt8) (time memory : UInt32) (threads : UInt8)
    (hthreads : 0 < threads.toNat) (keyLen : UInt32) : List UInt8 :=
  let S := shapeOf memory threads hthreads
  let seed := seed password salt [] [] time memory threads.toUInt32 keyLen
  variableHash keyLen.toNat (bytesOf (lastColumn S (sourceOf S time seed) (time.toNat - 1)))

end LukePanel.Crypto.Argon2.Reference
