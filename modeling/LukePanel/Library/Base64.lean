import Mathlib.Data.List.DropRight

/-! # Base64

`base64.RawStdEncoding` of the Go standard library, which has no padding, and the encodings beside
it: line breaks are skipped when a text is decoded, and the bits behind the last byte are not looked
at. -/
namespace LukePanel.Library.Base64

def alphabet : List Char :=
  "ABCDEFGHIJKLMNOPQRSTUVWXYZabcdefghijklmnopqrstuvwxyz0123456789+/".toList

def symbol (n : Nat) : Char := alphabet.getD n '='

def sextet (c : Char) : Option Nat := alphabet.findIdx? (· == c)

def encode : List UInt8 → List Char
  | [] => []
  | [a] =>
    let n := a.toNat * 16
    [symbol (n / 64), symbol (n % 64)]
  | [a, b] =>
    let n := (a.toNat * 256 + b.toNat) * 4
    [symbol (n / 4096), symbol (n / 64 % 64), symbol (n % 64)]
  | a :: b :: c :: rest =>
    let n := a.toNat * 65536 + b.toNat * 256 + c.toNat
    symbol (n / 262144) :: symbol (n / 4096 % 64) :: symbol (n / 64 % 64) :: symbol (n % 64) ::
      encode rest

/-- Characters without line breaks. -/
def decodeChars : List Char → Option (List UInt8)
  | [] => some []
  | [_] => none
  | [a, b] => do
    let n := 64 * (← sextet a) + (← sextet b)
    return [UInt8.ofNat (n / 16)]
  | [a, b, c] => do
    let n := 4096 * (← sextet a) + 64 * (← sextet b) + (← sextet c)
    return [UInt8.ofNat (n / 1024), UInt8.ofNat (n / 4)]
  | a :: b :: c :: d :: rest => do
    let n := 262144 * (← sextet a) + 4096 * (← sextet b) + 64 * (← sextet c) + (← sextet d)
    let bytes ← decodeChars rest
    return UInt8.ofNat (n / 65536) :: UInt8.ofNat (n / 256) :: UInt8.ofNat n :: bytes

/-- `RawStdEncoding.EncodeToString` -/
def encodeToString (bytes : List UInt8) : String := String.ofList (encode bytes)

/-- `RawStdEncoding.DecodeString` -/
def decodeString (text : String) : Option (List UInt8) :=
  decodeChars (text.toList.filter fun c => c ≠ '\r' ∧ c ≠ '\n')

/-- `StdEncoding.DecodeString`: the padding fills the last four characters. -/
def decodePadded (text : String) : Option (List UInt8) :=
  let chars := text.toList.filter fun c => c ≠ '\r' ∧ c ≠ '\n'
  let bare := chars.rdropWhile (· = '=')
  if chars.length % 4 = 0 ∧ chars.length ≤ bare.length + 2 then decodeChars bare else none

/-- `RawURLEncoding.EncodeToString`: `-` and `_` stand for `+` and `/`. -/
def encodeURLString (bytes : List UInt8) : String :=
  String.ofList ((encode bytes).map fun c => if c = '+' then '-' else if c = '/' then '_' else c)

/-- `RawURLEncoding.DecodeString` -/
def decodeURLString (text : String) : Option (List UInt8) :=
  if '+' ∈ text.toList ∨ '/' ∈ text.toList then none
  else decodeString (String.ofList (text.toList.map fun c =>
    if c = '-' then '+' else if c = '_' then '/' else c))

theorem sextet_symbol {n : Nat} (hn : n < 64) : sextet (symbol n) = some n := by
  have h : ∀ m : Fin 64, sextet (symbol m) = some m.val := by decide +kernel
  exact h ⟨n, hn⟩

theorem symbol_mem {n : Nat} (hn : n < 64) : symbol n ∈ alphabet := by
  have h : ∀ m : Fin 64, symbol m ∈ alphabet := by decide +kernel
  exact h ⟨n, hn⟩

theorem decodeChars_encode (bytes : List UInt8) : decodeChars (encode bytes) = some bytes := by
  fun_induction encode bytes with
  | case1 => rfl
  | case2 a n =>
    have ha := a.toNat_lt
    have hn : n = a.toNat * 16 := rfl
    have hback : 64 * (n / 64) + n % 64 = n := by omega
    simp only [decodeChars, sextet_symbol (show n / 64 < 64 by omega),
      sextet_symbol (show n % 64 < 64 by omega), Option.bind_eq_bind, Option.bind_some, hback]
    rw [show n / 16 = a.toNat by omega, UInt8.ofNat_toNat]
    rfl
  | case3 a b n =>
    have ha := a.toNat_lt
    have hb := b.toNat_lt
    have hn : n = (a.toNat * 256 + b.toNat) * 4 := rfl
    have hback : 4096 * (n / 4096) + 64 * (n / 64 % 64) + n % 64 = n := by omega
    simp only [decodeChars, sextet_symbol (show n / 4096 < 64 by omega),
      sextet_symbol (show n / 64 % 64 < 64 by omega),
      sextet_symbol (show n % 64 < 64 by omega), Option.bind_eq_bind, Option.bind_some, hback]
    rw [show n / 1024 = a.toNat by omega, show n / 4 = 256 * a.toNat + b.toNat by omega,
      UInt8.ofNat_toNat]
    have hlow : UInt8.ofNat (256 * a.toNat + b.toNat) = b := by
      refine UInt8.toNat_inj.mp ?_
      rw [UInt8.toNat_ofNat']
      omega
    rw [hlow]
    rfl
  | case4 a b c rest n ih =>
    have ha := a.toNat_lt
    have hb := b.toNat_lt
    have hc := c.toNat_lt
    have hn : n = a.toNat * 65536 + b.toNat * 256 + c.toNat := rfl
    have hback : 262144 * (n / 262144) + 4096 * (n / 4096 % 64) + 64 * (n / 64 % 64) + n % 64 = n := by
      omega
    have hhigh : UInt8.ofNat (n / 65536) = a := by
      refine UInt8.toNat_inj.mp ?_
      rw [UInt8.toNat_ofNat']
      omega
    have hmid : UInt8.ofNat (n / 256) = b := by
      refine UInt8.toNat_inj.mp ?_
      rw [UInt8.toNat_ofNat']
      omega
    have hlow : UInt8.ofNat n = c := by
      refine UInt8.toNat_inj.mp ?_
      rw [UInt8.toNat_ofNat']
      omega
    simp only [decodeChars, sextet_symbol (show n / 262144 < 64 by omega),
      sextet_symbol (show n / 4096 % 64 < 64 by omega),
      sextet_symbol (show n / 64 % 64 < 64 by omega),
      sextet_symbol (show n % 64 < 64 by omega), Option.bind_eq_bind, Option.bind_some, hback, ih]
    rw [hhigh, hmid, hlow]
    rfl

theorem mem_alphabet_of_mem_encode {bytes : List UInt8} {c : Char} (h : c ∈ encode bytes) :
    c ∈ alphabet := by
  fun_induction encode bytes with
  | case1 => cases h
  | case2 a n =>
    have ha := a.toNat_lt
    have hn : n = a.toNat * 16 := rfl
    simp only [List.mem_cons, List.not_mem_nil, or_false] at h
    rcases h with rfl | rfl <;> exact symbol_mem (by omega)
  | case3 a b n =>
    have ha := a.toNat_lt
    have hb := b.toNat_lt
    have hn : n = (a.toNat * 256 + b.toNat) * 4 := rfl
    simp only [List.mem_cons, List.not_mem_nil, or_false] at h
    rcases h with rfl | rfl | rfl <;> exact symbol_mem (by omega)
  | case4 a b d rest n ih =>
    have ha := a.toNat_lt
    have hb := b.toNat_lt
    have hd := d.toNat_lt
    have hn : n = a.toNat * 65536 + b.toNat * 256 + d.toNat := rfl
    simp only [List.mem_cons] at h
    rcases h with rfl | rfl | rfl | rfl | h
    · exact symbol_mem (by omega)
    · exact symbol_mem (by omega)
    · exact symbol_mem (by omega)
    · exact symbol_mem (by omega)
    · exact ih h

theorem not_mem_encodeToString {bytes : List UInt8} {c : Char} (hc : c ∉ alphabet) :
    c ∉ (encodeToString bytes).toList := by
  rw [encodeToString, String.toList_ofList]
  exact fun h => hc (mem_alphabet_of_mem_encode h)

theorem decodeString_encodeToString (bytes : List UInt8) :
    decodeString (encodeToString bytes) = some bytes := by
  have hplain : (encode bytes).filter (fun c => c ≠ '\r' ∧ c ≠ '\n') = encode bytes := by
    refine List.filter_eq_self.mpr fun c hc => decide_eq_true ⟨?_, ?_⟩
    · rintro rfl
      exact absurd (mem_alphabet_of_mem_encode hc) (by decide)
    · rintro rfl
      exact absurd (mem_alphabet_of_mem_encode hc) (by decide)
  rw [decodeString, encodeToString, String.toList_ofList, hplain, decodeChars_encode]

end LukePanel.Library.Base64
