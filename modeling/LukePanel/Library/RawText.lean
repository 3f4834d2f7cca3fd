import LukePanel.Library.Utf8

/-! # Byte strings written as text

A string of Go is bytes. Here it is written as text in which each byte that belongs to no character
is a character of its own, one of the last 256 that there are; these themselves are written byte by
byte, so that nothing is lost. -/
namespace LukePanel.Library.RawText
open LukePanel.Library.Utf8

def firstByteChar : ℕ := 0x10ff00

/-- The character that stands for a byte. -/
def byteChar (b : UInt8) : Char := Char.ofNat (firstByteChar + b.toNat)

def isByteChar (c : Char) : Bool := decide (firstByteChar ≤ c.toNat)

def bytesOf (c : Char) : Bytes :=
  if isByteChar c then [(c.toNat - firstByteChar).toUInt8] else String.utf8EncodeChar c

/-- The bytes that are written. -/
def bytes (s : String) : Bytes := s.toList.flatMap bytesOf

/-- The characters for the bytes, behind the bytes that are passed over. -/
def rawChars : ℕ → Bytes → List Char
  | _, [] => []
  | skip + 1, _ :: rest => rawChars skip rest
  | 0, b :: rest =>
    match (b :: rest).toByteArray.utf8DecodeChar? 0 with
    | some c => if isByteChar c then byteChar b :: rawChars 0 rest else c :: rawChars (c.utf8Size - 1) rest
    | none => byteChar b :: rawChars 0 rest

def raw (bytes : Bytes) : String := String.ofList (rawChars 0 bytes)

/-- What is read again where `json.Marshal` has written the string. -/
def marshalled (s : String) : String := raw (coerced (bytes s))

example : marshalled (raw [0x67, 0xf6, 0xc3, 0xb6]) = "g\ufffdö" := by decide +kernel

theorem bytesOf_byteChar (b : UInt8) : bytesOf (byteChar b) = [b] := by
  have hvalid : (firstByteChar + b.toNat).isValidChar := by
    have hb := b.toNat_lt
    exact .inr ⟨by unfold firstByteChar; omega, by unfold firstByteChar; omega⟩
  have hnat : (byteChar b).toNat = firstByteChar + b.toNat := by
    rw [byteChar, Char.ofNat, dif_pos hvalid]
    rfl
  rw [bytesOf, isByteChar, hnat, if_pos (decide_eq_true (Nat.le_add_right _ _)), Nat.add_sub_cancel_left]
  simp

theorem rawChars_drop (skip : ℕ) (bytes : Bytes) : rawChars skip bytes = rawChars 0 (bytes.drop skip) := by
  induction skip generalizing bytes with
  | zero => rw [List.drop_zero]
  | succ skip ih =>
    cases bytes with
    | nil => rfl
    | cons b rest => rw [rawChars, ih, List.drop_succ_cons]

theorem flatMap_rawChars (n : ℕ) : ∀ b : Bytes, b.length ≤ n → (rawChars 0 b).flatMap bytesOf = b := by
  induction n with
  | zero =>
    intro b hb
    rw [List.length_eq_zero_iff.mp (Nat.le_zero.mp hb)]
    rfl
  | succ n ih =>
    intro b hb
    cases b with
    | nil => rfl
    | cons b rest =>
      have hrest : (rawChars 0 rest).flatMap bytesOf = rest :=
        ih rest (Nat.le_of_succ_le_succ hb)
      have hbyte : (byteChar b :: rawChars 0 rest).flatMap bytesOf = b :: rest := by
        rw [List.flatMap_cons, bytesOf_byteChar, hrest, List.singleton_append]
      rw [rawChars]
      split
      · rename_i c hdecode
        split
        · exact hbyte
        · rename_i hc
          obtain ⟨tail, htail⟩ := ByteArray.exists_of_utf8DecodeChar?_eq_some hdecode
          obtain ⟨_, more, hbytes, hlength, -⟩ := encodeChar_cons c
          have hsplit : b :: rest = String.utf8EncodeChar c ++ tail.data.toList := by
            simpa using congrArg (fun bytes : ByteArray => bytes.data.toList) htail
          rw [hbytes, List.cons_append] at hsplit
          obtain ⟨rfl, rfl⟩ := List.cons.inj hsplit
          have hshort : tail.data.toList.length ≤ n := by
            rw [List.length_cons, List.length_append] at hb
            omega
          rw [List.flatMap_cons, rawChars_drop, ← hlength, List.drop_left, bytesOf, if_neg hc,
            ih _ hshort, hbytes, List.cons_append]
      · exact hbyte

/-- Nothing is lost. -/
theorem bytes_raw (b : Bytes) : bytes (raw b) = b := by
  rw [bytes, raw, String.toList_ofList]
  exact flatMap_rawChars b.length b (Nat.le_refl _)

theorem marshalled_marshalled (s : String) : marshalled (marshalled s) = marshalled s := by
  have hvalid : coerced (coerced (bytes s)) = coerced (bytes s) := valid_coerced _
  rw [marshalled, marshalled, bytes_raw, hvalid]

theorem rawChars_encodeChar {c : Char} (hc : isByteChar c = false) (rest : Bytes) :
    rawChars 0 (String.utf8EncodeChar c ++ rest) = c :: rawChars 0 rest := by
  obtain ⟨b, more, hbytes, hlength, hdecode⟩ := encodeChar_cons c
  rw [hbytes, List.cons_append, rawChars, hdecode rest]
  dsimp only
  rw [hc, if_neg Bool.false_ne_true, rawChars_drop, ← hlength, List.drop_left]

/-- Text stays as it is. -/
theorem marshalled_text {s : String} (h : ∀ c ∈ s.toList, isByteChar c = false) : marshalled s = s := by
  have hchars : ∀ chars : List Char, (∀ c ∈ chars, isByteChar c = false) →
      chars.flatMap bytesOf = chars.flatMap String.utf8EncodeChar ∧
        rawChars 0 (chars.flatMap String.utf8EncodeChar) = chars := by
    intro chars hchars
    induction chars with
    | nil => exact ⟨rfl, rfl⟩
    | cons c rest ih =>
      rw [List.forall_mem_cons] at hchars
      obtain ⟨hbytes, hraw⟩ := ih hchars.2
      have hbyte : bytesOf c = String.utf8EncodeChar c := by rw [bytesOf, hchars.1, if_neg Bool.false_ne_true]
      refine ⟨by rw [List.flatMap_cons, List.flatMap_cons, hbyte, hbytes], ?_⟩
      rw [List.flatMap_cons, rawChars_encodeChar hchars.1, hraw]
  obtain ⟨hbytes, hraw⟩ := hchars s.toList h
  have hencode : bytes s = encode s := hbytes.trans (encode_eq s).symm
  have hvalid : coerced (encode s) = encode s := valid_encode s
  rw [marshalled, hencode, hvalid, raw, encode_eq, hraw, String.ofList_toList]

end LukePanel.Library.RawText
