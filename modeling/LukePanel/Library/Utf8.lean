import Mathlib.Data.List.Basic

/-! # Text in UTF-8, and bytes that are none

Where Go writes a string as JSON or ranges over it, each byte that does not belong to a character is
taken for U+FFFD. -/
namespace LukePanel.Library.Utf8

abbrev Bytes := List UInt8

def encode (s : String) : Bytes := s.toUTF8.data.toList

/-- The characters, behind the bytes that are passed over. -/
def runes : ℕ → Bytes → List Char
  | _, [] => []
  | skip + 1, _ :: rest => runes skip rest
  | 0, b :: rest =>
    match (b :: rest).toByteArray.utf8DecodeChar? 0 with
    | some c => c :: runes (c.utf8Size - 1) rest
    | none => '\ufffd' :: runes 0 rest

def decode (bytes : Bytes) : String := String.ofList (runes 0 bytes)

/-- What is left of the bytes when they are read as text. -/
def coerced (bytes : Bytes) : Bytes := encode (decode bytes)

def Valid (bytes : Bytes) : Prop := coerced bytes = bytes

instance (bytes : Bytes) : Decidable (Valid bytes) := inferInstanceAs (Decidable (_ = _))

example : decode [0x67, 0xf6, 0xc3, 0xb6, 0xe6, 0x97] = "g\ufffdö\ufffd\ufffd" := by decide +kernel

theorem encode_ofList (chars : List Char) :
    encode (String.ofList chars) = chars.flatMap String.utf8EncodeChar := by
  rw [encode, String.toUTF8_eq_toByteArray, String.toByteArray_ofList, List.utf8Encode,
    List.data_toByteArray]

theorem encode_eq (s : String) : encode s = s.toList.flatMap String.utf8EncodeChar := by
  rw [← encode_ofList, String.ofList_toList]

theorem runes_drop (skip : ℕ) (bytes : Bytes) : runes skip bytes = runes 0 (bytes.drop skip) := by
  induction skip generalizing bytes with
  | zero => rw [List.drop_zero]
  | succ skip ih =>
    cases bytes with
    | nil => rfl
    | cons b rest => rw [runes, ih, List.drop_succ_cons]

/-- What the bytes of a character begin with, and what is read of them. -/
theorem encodeChar_cons (c : Char) : ∃ b more, String.utf8EncodeChar c = b :: more ∧
    more.length = c.utf8Size - 1 ∧
    ∀ rest, (b :: (more ++ rest)).toByteArray.utf8DecodeChar? 0 = some c := by
  have hlength := String.length_utf8EncodeChar c
  have hdecode (rest : Bytes) :
      (String.utf8EncodeChar c ++ rest).toByteArray.utf8DecodeChar? 0 = some c := by
    rw [List.toByteArray_append]
    exact ByteArray.utf8DecodeChar?_utf8EncodeChar_append
  cases hbytes : String.utf8EncodeChar c with
  | nil =>
    rw [hbytes, List.length_nil] at hlength
    exact absurd hlength (Nat.ne_of_lt c.utf8Size_pos)
  | cons b more =>
    rw [hbytes] at hdecode hlength
    refine ⟨b, more, rfl, ?_, hdecode⟩
    rw [← hlength, List.length_cons, Nat.add_sub_cancel]

theorem runes_encodeChar (c : Char) (rest : Bytes) :
    runes 0 (String.utf8EncodeChar c ++ rest) = c :: runes 0 rest := by
  obtain ⟨b, more, hbytes, hlength, hdecode⟩ := encodeChar_cons c
  rw [hbytes, List.cons_append, runes, hdecode rest]
  dsimp only
  rw [runes_drop, ← hlength, List.drop_left]

/-- Text comes back from its bytes. -/
theorem decode_encode (s : String) : decode (encode s) = s := by
  have hrunes : ∀ chars : List Char, runes 0 (chars.flatMap String.utf8EncodeChar) = chars := by
    intro chars
    induction chars with
    | nil => rfl
    | cons c rest ih => rw [List.flatMap_cons, runes_encodeChar, ih]
  rw [decode, encode_eq, hrunes, String.ofList_toList]

theorem valid_encode (s : String) : Valid (encode s) := by
  rw [Valid, coerced, decode_encode]

theorem valid_coerced (bytes : Bytes) : Valid (coerced bytes) := valid_encode _

end LukePanel.Library.Utf8
