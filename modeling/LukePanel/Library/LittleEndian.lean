import Mathlib.Data.List.Basic
import Mathlib.Data.UInt

/-! # Words as bytes, the lowest first -/
namespace LukePanel.Library.LittleEndian

def putUint32 (v : UInt32) : List UInt8 :=
  (List.range 4).map fun i => (v >>> (8 * i).toUInt32).toUInt8

def putUint64 (v : UInt64) : List UInt8 :=
  (List.range 8).map fun i => (v >>> (8 * i).toUInt64).toUInt8

/-- The word of the first eight bytes. -/
def uint64 (b : List UInt8) : UInt64 :=
  (b.take 8).foldr (fun x rest => x.toUInt64 ||| rest <<< 8) 0

@[simp] theorem length_putUint32 (v : UInt32) : (putUint32 v).length = 4 := rfl

@[simp] theorem length_putUint64 (v : UInt64) : (putUint64 v).length = 8 := rfl

/-- Only the first eight bytes are read. -/
theorem uint64_append {b : List UInt8} (h : 8 ≤ b.length) (more : List UInt8) :
    uint64 (b ++ more) = uint64 b := by
  rw [uint64, uint64, List.take_append_of_le_length h]

end LukePanel.Library.LittleEndian
