import LukePanel.Crypto.Blake2b
import LukePanel.Library.HeldBlocks

/-! # What BLAKE2b is

The hash of a message by its definition: a state of sixteen words whose columns and diagonals are
mixed in twelve rounds, the message cut into blocks of 128 bytes of which the last is filled up
with zeros, and the number of bytes so far counted in 128 bits. -/
namespace LukePanel.Crypto.Blake2b.Reference
open LukePanel.Library

def rotr (x n : UInt64) : UInt64 := x >>> n ||| x <<< (64 - n)

/-- The mixing function of four words of the state and two of the message. -/
def mix (a b c d x y : UInt64) : UInt64 × UInt64 × UInt64 × UInt64 :=
  let a := a + b + x
  let d := rotr (d ^^^ a) 32
  let c := c + d
  let b := rotr (b ^^^ c) 24
  let a := a + b + y
  let d := rotr (d ^^^ a) 16
  let c := c + d
  let b := rotr (b ^^^ c) 63
  (a, b, c, d)

/-- Numbers of message words. -/
local instance neZero16 : NeZero 16 := ⟨by decide⟩

/-- The permutations of the message words. -/
def sigma : Vector (Vector (Fin 16) 16) 10 :=
  #v[#v[0, 1, 2, 3, 4, 5, 6, 7, 8, 9, 10, 11, 12, 13, 14, 15],
    #v[14, 10, 4, 8, 9, 15, 13, 6, 1, 12, 0, 2, 11, 7, 5, 3],
    #v[11, 8, 12, 0, 5, 2, 15, 13, 10, 14, 3, 6, 7, 1, 9, 4],
    #v[7, 9, 3, 1, 13, 12, 11, 14, 2, 6, 5, 10, 4, 0, 15, 8],
    #v[9, 0, 5, 7, 2, 4, 10, 15, 14, 1, 11, 12, 6, 8, 3, 13],
    #v[2, 12, 6, 10, 0, 11, 8, 3, 4, 13, 7, 5, 15, 14, 1, 9],
    #v[12, 5, 1, 15, 14, 13, 4, 10, 0, 7, 6, 3, 9, 2, 8, 11],
    #v[13, 11, 7, 14, 12, 1, 3, 9, 5, 0, 15, 4, 8, 6, 2, 10],
    #v[6, 15, 14, 9, 11, 3, 0, 8, 12, 2, 13, 7, 1, 4, 10, 5],
    #v[10, 2, 8, 4, 7, 6, 1, 5, 15, 11, 9, 14, 3, 12, 13, 0]]

/-- The columns, then the diagonals. -/
def mixWords (mix : UInt64 → UInt64 → UInt64 → UInt64 → UInt64 → UInt64 →
    UInt64 × UInt64 × UInt64 × UInt64) (m : Fin 16 → UInt64) : Work → Work
  | ⟨v0, v1, v2, v3, v4, v5, v6, v7, v8, v9, v10, v11, v12, v13, v14, v15⟩ =>
    let (v0, v4, v8, v12) := mix v0 v4 v8 v12 (m 0) (m 1)
    let (v1, v5, v9, v13) := mix v1 v5 v9 v13 (m 2) (m 3)
    let (v2, v6, v10, v14) := mix v2 v6 v10 v14 (m 4) (m 5)
    let (v3, v7, v11, v15) := mix v3 v7 v11 v15 (m 6) (m 7)
    let (v0, v5, v10, v15) := mix v0 v5 v10 v15 (m 8) (m 9)
    let (v1, v6, v11, v12) := mix v1 v6 v11 v12 (m 10) (m 11)
    let (v2, v7, v8, v13) := mix v2 v7 v8 v13 (m 12) (m 13)
    let (v3, v4, v9, v14) := mix v3 v4 v9 v14 (m 14) (m 15)
    ⟨v0, v1, v2, v3, v4, v5, v6, v7, v8, v9, v10, v11, v12, v13, v14, v15⟩

theorem mod_ten_lt (i : Nat) : i % 10 < 10 := Nat.mod_lt i (by decide)

def round (m : Vector UInt64 16) (i : Nat) : Work → Work :=
  mixWords mix fun k => m.get ((sigma.get ⟨i % 10, mod_ten_lt i⟩).get k)

/-- Compression of a block when `t` bytes have come, its own among them. -/
def compress (h : Vector UInt64 8) (block : List UInt8) (t : Nat) (last : Bool) : Vector UInt64 8 :=
  feedForward h ((List.range 12).foldl (fun v i => round (words block) i v)
    (initialWork h t.toUInt64 (t / 2 ^ 64).toUInt64 (if last then ~~~ 0 else 0)))

/-- A block that is not the last, with the count of the bytes before it. -/
def chain (s : Vector UInt64 8 × Nat) (block : List UInt8) : Vector UInt64 8 × Nat :=
  (compress s.1 block (s.2 + blockSize) false, s.2 + blockSize)

def fill (bytes : List UInt8) : List UInt8 := bytes ++ List.replicate (blockSize - bytes.length) 0

theorem first_lt : 0 < 8 := by decide

/-- The first state, for digests of `size` bytes under a key of `keyLen`. -/
def start (size keyLen : Nat) : Vector UInt64 8 :=
  iv.set 0 (iv.get ⟨0, first_lt⟩ ^^^ (size.toUInt64 ||| keyLen.toUInt64 <<< 8 |||
    (1 : UInt64) <<< 16 ||| (1 : UInt64) <<< 24)) first_lt

/-- A key stands in a block of its own before the message. -/
def input (key message : List UInt8) : List UInt8 :=
  if key = [] then message else fill key ++ message

/-- The digest of a message under a key. -/
def blake2b (size : Nat) (key message : List UInt8) : List UInt8 :=
  let data := input key message
  let s := HeldBlocks.absorb blockSize chain (start size key.length, 0) data
  let h := compress s.1.1 (fill s.2) data.length true
  (h.toList.flatMap LittleEndian.putUint64).take size

/-! ## The unrolled rounds -/

theorem rotateLeft64_neg (x : UInt64) {n : Nat} (hpos : 0 < n) (hlt : n < 64) :
    rotateLeft64 x (-n) = rotr x n.toUInt64 := by
  have hmod : (-(n : Int) % 64).toNat = 64 - n := by omega
  have hleft : (64 - n).toUInt64 = 64 - n.toUInt64 := by
    apply UInt64.toNat_inj.mp
    rw [UInt64.toNat_sub_of_le _ _ (UInt64.le_iff_toNat_le.mpr (by simp; omega))]
    simp
    omega
  have hright : 64 - (64 - n.toUInt64) = n.toUInt64 := by grind
  rw [rotateLeft64, rotr, hmod, hleft, hright, UInt64.or_comm]

/-- The mixing as the assignments of `mixRound` do it. -/
def mixAssigned (a b c d x y : UInt64) : UInt64 × UInt64 × UInt64 × UInt64 :=
  let a := a + (x + b)
  let d := d ^^^ a
  let d := rotateLeft64 d (-32)
  let c := c + d
  let b := b ^^^ c
  let b := rotateLeft64 b (-24)
  let a := a + (y + b)
  let d := d ^^^ a
  let d := rotateLeft64 d (-16)
  let c := c + d
  let b := b ^^^ c
  let b := rotateLeft64 b (-63)
  (a, b, c, d)

theorem mixAssigned_eq : mixAssigned = mix := by
  have hadd (a b x : UInt64) : a + (x + b) = a + b + x := by
    rw [UInt64.add_comm x b, UInt64.add_assoc]
  have h32 (x : UInt64) : rotateLeft64 x (-32) = rotr x 32 :=
    rotateLeft64_neg x (n := 32) (by decide) (by decide)
  have h24 (x : UInt64) : rotateLeft64 x (-24) = rotr x 24 :=
    rotateLeft64_neg x (n := 24) (by decide) (by decide)
  have h16 (x : UInt64) : rotateLeft64 x (-16) = rotr x 16 :=
    rotateLeft64_neg x (n := 16) (by decide) (by decide)
  have h63 (x : UInt64) : rotateLeft64 x (-63) = rotr x 63 :=
    rotateLeft64_neg x (n := 63) (by decide) (by decide)
  funext a b c d x y
  simp only [mixAssigned, mix, hadd, h32, h24, h16, h63]

/-- `mixRound` is one round whose words come in the order that it takes them in: the first words
of the columns, the second ones, and the same for the diagonals. -/
theorem mixRound_eq (w : Fin 16 → UInt64) (v : Work) :
    mixRound w v = mixWords mix (fun i =>
      w (#v[0, 4, 1, 5, 2, 6, 3, 7, 8, 12, 9, 13, 10, 14, 11, 15].get i)) v := by
  rw [← mixAssigned_eq]
  cases v
  rfl

theorem precomputed_get (i : Fin 12) (k : Fin 16) :
    (precomputed.get i).get (#v[0, 4, 1, 5, 2, 6, 3, 7, 8, 12, 9, 13, 10, 14, 11, 15].get k) =
      (sigma.get ⟨i.val % 10, mod_ten_lt i.val⟩).get k := by
  revert i k
  decide

theorem hashRound_eq (m : Vector UInt64 16) (i : Fin 12) (v : Work) :
    hashRound m precomputed[i] v = round m i v := by
  rw [hashRound, mixRound_eq, round]
  congr 1
  funext k
  exact congrArg (fun j : Fin 16 => m[j]) (precomputed_get i k)

theorem precomputed_foldl (m : Vector UInt64 16) (v : Work) :
    precomputed.toList.foldl (fun v s => hashRound m s v) v =
      (List.range 12).foldl (fun v i => round m i v) v := by
  have hlist : precomputed.toList = (List.finRange 12).map fun i => precomputed[i] := by decide
  have hrange : List.range 12 = (List.finRange 12).map Fin.val := by decide
  rw [hlist, hrange, List.foldl_map, List.foldl_map]
  simp only [hashRound_eq]

/-! ## Blocks and the counter -/

/-- A count of bytes as the two words of a digest hold it. -/
def counter (t : Nat) : UInt64 × UInt64 := (t.toUInt64, (t / 2 ^ 64).toUInt64)

theorem counter_zero : counter 0 = (0, 0) := by decide

theorem countBlock_counter (t : Nat) : countBlock (counter t) = counter (t + blockSize) := by
  have hb : blockSize = 128 := rfl
  refine Prod.ext (UInt64.toNat_inj.mp ?_) (UInt64.toNat_inj.mp ?_)
  · simp only [countBlock, counter, hb, UInt64.toNat_add, UInt64.toNat_ofNat']
    omega
  · simp only [countBlock, counter, hb, UInt64.lt_iff_toNat_lt]
    split <;> simp_all only [UInt64.toNat_add, UInt64.toNat_ofNat'] <;> simp <;> omega

/-- What `finalize` takes back of the counter is made up for by the block it compresses. -/
theorem countBlock_sub (t offset : Nat) (h : offset ≤ blockSize) :
    let c := counter t
    let remaining := (blockSize - offset).toUInt64
    countBlock (c.1 - remaining, if c.1 < remaining then c.2 - 1 else c.2) = counter (t + offset) := by
  have hb : blockSize = 128 := rfl
  refine Prod.ext (UInt64.toNat_inj.mp ?_) (UInt64.toNat_inj.mp ?_)
  · simp only [countBlock, counter, hb, UInt64.toNat_add, UInt64.toNat_sub, UInt64.toNat_ofNat']
    omega
  · simp only [countBlock, counter, hb, UInt64.lt_iff_toNat_lt]
    split <;> split <;> simp_all only [UInt64.toNat_add, UInt64.toNat_sub, UInt64.toNat_ofNat'] <;> simp <;> omega

/-- Only the bytes of the block itself are read. -/
theorem words_append {block : List UInt8} (hlen : block.length = blockSize) (rest : List UInt8) :
    words (block ++ rest) = words block := by
  unfold words
  congr 1
  funext j
  have hb : block.length = 128 := hlen
  rw [List.drop_append_of_le_length (by omega), LittleEndian.uint64_append (by simp; omega)]

theorem hashBlock_eq {block : List UInt8} (hlen : block.length = blockSize) (rest : List UInt8)
    (h : Vector UInt64 8) (t : Nat) (last : Bool) :
    hashBlock h (counter t) (if last then ~~~ 0 else 0) (block ++ rest) = compress h block t last := by
  rw [hashBlock, words_append hlen, precomputed_foldl]
  rfl

theorem hashBlocks_nil (h : Vector UInt64 8) (c : UInt64 × UInt64) (flag : UInt64)
    (whole : blockSize ∣ ([] : List UInt8).length) : hashBlocks h c flag [] whole = (h, c) := by
  rw [hashBlocks, dif_pos rfl]

theorem hashBlocks_append {block rest : List UInt8} (hblock : block.length = blockSize)
    (h : Vector UInt64 8) {c : UInt64 × UInt64} {t : Nat} (hc : countBlock c = counter t) (last : Bool)
    (whole : blockSize ∣ (block ++ rest).length) (whole' : blockSize ∣ rest.length) :
    hashBlocks h c (if last then ~~~ 0 else 0) (block ++ rest) whole =
      hashBlocks (compress h block t last) (counter t) (if last then ~~~ 0 else 0) rest whole' := by
  have hne : block ++ rest ≠ [] := by
    intro hnil
    rw [(List.append_eq_nil_iff.mp hnil).1] at hblock
    cases hblock
  rw [hashBlocks, dif_neg hne]
  simp only [hc, hashBlock_eq hblock, List.drop_left' hblock]

/-- Blocks that more data follow are compressed one after the other. -/
theorem hashBlocks_flatten {blocks : List (List UInt8)} (hblocks : ∀ b ∈ blocks, b.length = blockSize)
    (s : Vector UInt64 8 × Nat) {bytes : List UInt8} (hbytes : bytes = blocks.flatten)
    (whole : blockSize ∣ bytes.length) :
    hashBlocks s.1 (counter s.2) 0 bytes whole =
      ((blocks.foldl chain s).1, counter (blocks.foldl chain s).2) := by
  subst hbytes
  induction blocks generalizing s with
  | nil => exact hashBlocks_nil _ _ _ _
  | cons block blocks ih =>
    obtain ⟨hblock, hblocks⟩ := List.forall_mem_cons.mp hblocks
    have whole' : blockSize ∣ blocks.flatten.length := by
      have hlen : (block :: blocks).flatten.length = blockSize + blocks.flatten.length := by
        rw [List.flatten_cons, List.length_append, hblock]
      rw [hlen] at whole
      exact (Nat.dvd_add_right (Nat.dvd_refl _)).mp whole
    have hstep := hashBlocks_append hblock s.1 (countBlock_counter s.2) false whole whole'
    simp only [Bool.false_eq_true, if_false] at hstep
    exact hstep.trans (ih hblocks (chain s block) whole')

theorem foldl_chain_count (blocks : List (List UInt8)) (s : Vector UInt64 8 × Nat) :
    (blocks.foldl chain s).2 = s.2 + blockSize * blocks.length := by
  induction blocks generalizing s with
  | nil => rfl
  | cons block blocks ih =>
    rw [List.foldl_cons, ih, List.length_cons, Nat.mul_succ, chain]
    omega

end LukePanel.Crypto.Blake2b.Reference
