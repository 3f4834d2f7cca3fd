import LukePanel.Crypto.Argon2
import LukePanel.Crypto.Blake2bStream

/-! # Hashes of any length

What `blake2bHash` computes: the first halves of a chain of hashes and the whole of its last, whose
size makes up the length. -/
namespace LukePanel.Crypto.VariableHash
open LukePanel.Library LukePanel.Crypto.Blake2b LukePanel.Crypto.Blake2b.Reference
  LukePanel.Crypto.Blake2b.Stream LukePanel.Crypto.Argon2

/-- The `i`-th link of the chain of full hashes. -/
def link (first : List UInt8) (i : Nat) : List UInt8 := (blake2b maxSize [])^[i] first

/-- The hash of `outLen` bytes. -/
def variableHash (outLen : Nat) (input : List UInt8) : List UInt8 :=
  let message := LittleEndian.putUint32 outLen.toUInt32 ++ input
  if outLen ≤ maxSize then blake2b outLen [] message
  else
    let first := blake2b maxSize [] message
    let r := (outLen + 31) / 32 - 2
    (List.range r).flatMap (fun i => (link first i).take 32) ++
      blake2b (outLen - 32 * r) [] (link first (r - 1))

theorem length_blake2b {size : Nat} (h : size ≤ maxSize) (key message : List UInt8) :
    (blake2b size key message).length = size := by
  have hwords (v : Vector UInt64 8) : (v.toList.flatMap LittleEndian.putUint64).length = maxSize := by
    rw [List.length_flatMap]
    simp
    decide
  rw [blake2b, List.length_take, hwords]
  omega

theorem length_link {first : List UInt8} (h : first.length = maxSize) (i : Nat) :
    (link first i).length = maxSize := by
  cases i with
  | zero => exact h
  | succ i =>
    rw [link, Function.iterate_succ_apply']
    exact length_blake2b (Nat.le_refl _) _ _

theorem link_succ (first : List UInt8) (i : Nat) :
    link first (i + 1) = link (blake2b maxSize [] first) i := by
  rw [link, Function.iterate_succ_apply]
  rfl

theorem length_variableHash (outLen : Nat) (input : List UInt8) :
    (variableHash outLen input).length = outLen := by
  unfold variableHash
  split
  · rename_i h
    exact length_blake2b h _ _
  · rename_i h
    have hmax : maxSize = 64 := rfl
    have hlinks : ∀ i ∈ List.range ((outLen + 31) / 32 - 2),
        ((link (blake2b maxSize [] (LittleEndian.putUint32 outLen.toUInt32 ++ input)) i).take 32).length =
          32 := fun i _ => by
      rw [List.length_take, length_link (length_blake2b (Nat.le_refl _) _ _)]
      rfl
    rw [List.length_append, List.length_flatMap, List.map_congr_left hlinks, List.map_const',
      List.sum_replicate_nat, List.length_range, length_blake2b (by omega)]
    omega

/-- What the loop of `blake2bHash` adds for the links behind the first. -/
theorem expand_eq {b2 : Digest} (h : Holds b2 maxSize [] []) (buffer : List UInt8) (left : Nat) :
    (expand b2 buffer left).1 =
        (List.range ((left + 31) / 32 - 2)).flatMap (fun i => (link buffer (i + 1)).take 32) ∧
      (expand b2 buffer left).2.1 = link buffer ((left + 31) / 32 - 2) ∧
      Holds (expand b2 buffer left).2.2 maxSize [] [] := by
  induction left using Nat.strong_induction_on generalizing b2 buffer with
  | _ left ih =>
    have hmax : maxSize = 64 := rfl
    rw [expand]
    split
    · rename_i hlt
      have hsum : (b2.write buffer).sum [] = blake2b maxSize [] buffer := (h.write buffer).sum_eq []
      have hcount : (left + 31) / 32 - 2 = (left - 32 + 31) / 32 - 2 + 1 := by omega
      obtain ⟨hout, hlast, hholds⟩ := ih (left - 32) (by omega) (h.write buffer).reset
        ((b2.write buffer).sum [])
      rw [hsum] at hout hlast
      refine ⟨?_, ?_, hholds⟩
      · rw [hcount, List.range_succ_eq_map, List.flatMap_cons, List.flatMap_map]
        simp only [hsum, hout, link_succ buffer]
        rfl
      · simp only [hsum, hcount, link_succ buffer, hlast]
    · rename_i hle
      have hcount : (left + 31) / 32 - 2 = 0 := by omega
      rw [hcount]
      exact ⟨rfl, rfl, h⟩

theorem new_toOption {size : Nat} (hpos : 0 < size) (h : size ≤ maxSize) :
    ∃ d, (newDigest size []).toOption = some d ∧ Holds d size [] [] := by
  obtain ⟨d, hd, hholds⟩ := @Holds.new size [] hpos h (Nat.zero_le _)
  exact ⟨d, by rw [hd]; rfl, hholds⟩

theorem longHash_eq {b2 : Digest} {message : List UInt8} (h : Holds b2 maxSize [] message)
    {outLen : Nat} (hlong : maxSize < outLen) :
    longHash b2 outLen =
      some ((List.range ((outLen + 31) / 32 - 2)).flatMap
          (fun i => (link (blake2b maxSize [] message) i).take 32) ++
        blake2b (outLen - 32 * ((outLen + 31) / 32 - 2)) []
          (link (blake2b maxSize [] message) ((outLen + 31) / 32 - 2 - 1))) := by
  have hmax : maxSize = 64 := rfl
  obtain ⟨r, hr⟩ : ∃ r, (outLen + 31) / 32 - 2 = r + 1 := ⟨(outLen + 31) / 32 - 3, by omega⟩
  have hleft : (outLen - 32 + 31) / 32 - 2 = r := by omega
  have hfirst : b2.sum [] = blake2b maxSize [] message := h.sum_eq []
  obtain ⟨hout, hlast, hholds⟩ := expand_eq h.reset (blake2b maxSize [] message) (outLen - 32)
  rw [hleft] at hout hlast
  have hfinal : ∃ d, (if 0 < outLen % maxSize then (newDigest (outLen - 32 * (r + 1)) []).toOption
      else some (expand b2.reset (blake2b maxSize [] message) (outLen - 32)).2.2) = some d ∧
      Holds d (outLen - 32 * (r + 1)) [] [] := by
    split
    · exact new_toOption (by omega) (by omega)
    · rename_i hwhole
      rw [hmax] at hwhole
      have hsize : outLen - 32 * (r + 1) = maxSize := by omega
      exact ⟨_, rfl, hsize ▸ hholds⟩
  obtain ⟨d, hd, hdholds⟩ := hfinal
  have hsum := (hdholds.write (link (blake2b maxSize [] message) r)).sum_eq []
  simp only [longHash, hfirst, hr, hd, hout, hlast, hsum, Option.map_some, List.nil_append,
    Nat.add_sub_cancel, List.range_succ_eq_map, List.flatMap_cons, List.flatMap_map]
  rfl

/-- `blake2bHash` gives the hash of the length that is asked for; asked for none, it panics. -/
theorem blake2bHash_eq (outLen : Nat) (input : List UInt8) :
    blake2bHash outLen input = if outLen = 0 then none else some (variableHash outLen input) := by
  by_cases hzero : outLen = 0
  · subst hzero
    rfl
  have hnew : ∃ d, (if outLen < maxSize then newDigest outLen [] else new512 []).toOption = some d ∧
      Holds d (min outLen maxSize) [] [] := by
    split
    · rename_i hlt
      rw [Nat.min_eq_left (Nat.le_of_lt hlt)]
      exact new_toOption (Nat.pos_of_ne_zero hzero) (Nat.le_of_lt hlt)
    · rw [Nat.min_eq_right (by omega)]
      exact new_toOption (by decide) (Nat.le_refl _)
  obtain ⟨d, hd, hholds⟩ := hnew
  have hwritten := (hholds.write (LittleEndian.putUint32 outLen.toUInt32)).write input
  rw [if_neg hzero, blake2bHash, hd]
  by_cases hle : outLen ≤ maxSize
  · rw [Nat.min_eq_left hle] at hwritten
    simp only [Option.bind_eq_bind, Option.bind_some, if_pos hle, variableHash, hwritten.sum_eq]
    rfl
  · rw [Nat.min_eq_right (by omega)] at hwritten
    simp only [Option.bind_eq_bind, Option.bind_some, if_neg hle, variableHash,
      longHash_eq hwritten (Nat.lt_of_not_le hle)]
    rfl

end LukePanel.Crypto.VariableHash
