import LukePanel.Library.AddressText

/-! # Networks of internet addresses

`net.ParseCIDR`, and `Contains` and `String` of a network. -/
namespace LukePanel.Library.NetAddress

/-- A network as `networkNumberAndMask` gives it, the mask by its length. -/
inductive IPNet where
  | v4 (number : BitVec 32) (length : ℕ)
  | v6 (number : IP) (length : ℕ)
  deriving DecidableEq

/-- The 16 bytes of an IPv4 address. -/
def IP.ofV4Bits (v4 : BitVec 32) : IP := BitVec.ofNat 128 (65535 * 4294967296 + v4.toNat)

namespace IPNet

/-- The network of an address; `v4` is an address that is written without colons. -/
def ofAddress (v4 : Bool) (addr : IP) (length : ℕ) : IPNet :=
  if v4 then .v4 (BitVec.ofNat 32 addr.toNat &&& mask 32 length) length
  else
    let number := addr &&& mask 128 length
    match number.to4 with
    | some net => .v4 net (length - 96)
    | none => .v6 number length

def contains (net : IPNet) (ip : IP) : Bool :=
  match net with
  | .v4 number length => ip.to4.any fun ip => number &&& mask 32 length = ip &&& mask 32 length
  | .v6 number length => ip.to4.isNone && (number &&& mask 128 length = ip &&& mask 128 length)

def number : IPNet → IP
  | .v4 number _ => IP.ofV4Bits number
  | .v6 number _ => number

def length : IPNet → ℕ
  | .v4 _ length => length
  | .v6 _ length => length

def string (net : IPNet) : String := net.number.string ++ "/" ++ toString net.length

/-- The number has no bits behind the mask. -/
def Masked : IPNet → Prop
  | .v4 number length => length ≤ 32 ∧ number &&& mask 32 length = number
  | .v6 number length => length ≤ 128 ∧ number &&& mask 128 length = number ∧ number.to4 = none

end IPNet

def parseCIDR (s : String) : Option (IP × IPNet) :=
  let chars := s.toList
  let address := String.ofList (chars.takeWhile (· ≠ '/'))
  match chars.dropWhile (· ≠ '/'), parseIP address with
  | _ :: digits, some addr =>
    let v4 := decide (':' ∉ address.toList)
    let length := Nat.ofDigitChars 10 digits 0
    if digits = [] ∨ digits.all Char.isDigit = false ∨ (if v4 then 32 else 128) < length then none
    else some (addr, IPNet.ofAddress v4 addr length)
  | _, _ => none

example : (parseCIDR "::ffff:192.0.2.1/120").map (·.2.string) = some "192.0.2.0/24" := by
  decide +kernel

/-! ## Masks -/

variable {ip addr : IP} {net : IPNet} {s : String} {c : Char}

theorem getLsbD_mask (width length i : ℕ) :
    (mask width length).getLsbD i = (decide (i < width) && decide (width ≤ length + i)) := by
  rw [mask, BitVec.getLsbD_not, BitVec.getLsbD_ushiftRight, BitVec.getLsbD_allOnes]
  by_cases h : length + i < width
  · simp [h, Nat.not_le.mpr h]
  · simp [h, Nat.not_lt.mp h]

theorem and_mask_mask {width : ℕ} (x : BitVec width) (length : ℕ) :
    x &&& mask width length &&& mask width length = x &&& mask width length := by
  rw [BitVec.and_assoc, BitVec.and_self]

/-- The mask of 128 bits cuts the last 32 as its end does. -/
theorem ofNat_and_mask (x : IP) (length : ℕ) :
    BitVec.ofNat 32 (x &&& mask 128 length).toNat &&& mask 32 (length - 96) =
      BitVec.ofNat 32 (x &&& mask 128 length).toNat := by
  refine BitVec.eq_of_getLsbD_eq fun i hi => ?_
  rw [BitVec.ofNat_toNat, BitVec.getLsbD_and, BitVec.getLsbD_setWidth, BitVec.getLsbD_and,
    getLsbD_mask, getLsbD_mask]
  by_cases h : 128 ≤ length + i
  · have hlow : 32 ≤ length - 96 + i := by omega
    simp [hlow, hi]
  · simp [h]

theorem masked_ofAddress {v4 : Bool} {length : ℕ} (h : length ≤ if v4 then 32 else 128) :
    (IPNet.ofAddress v4 addr length).Masked := by
  unfold IPNet.ofAddress
  cases v4 with
  | true => exact ⟨h, and_mask_mask _ length⟩
  | false =>
    have hlength : length ≤ 128 := h
    rw [if_neg Bool.false_ne_true]
    dsimp only
    cases hnet : (addr &&& mask 128 length).to4 with
    | none => exact ⟨hlength, and_mask_mask addr length, hnet⟩
    | some net =>
      have hbits : net = BitVec.ofNat 32 (addr &&& mask 128 length).toNat := by
        unfold IP.to4 at hnet
        split at hnet
        · exact (Option.some.inj hnet).symm
        · cases hnet
      refine ⟨by omega, ?_⟩
      rw [hbits]
      exact ofNat_and_mask addr length

theorem masked_of_parseCIDR (h : parseCIDR s = some (addr, net)) : net.Masked := by
  unfold parseCIDR at h
  dsimp only at h
  split at h
  · obtain ⟨hok, hnet⟩ := Option.ite_none_left_eq_some.mp h
    obtain ⟨-, rfl⟩ := Prod.mk.inj (Option.some.inj hnet)
    rw [not_or, not_or, Nat.not_lt] at hok
    exact masked_ofAddress hok.2.2
  · cases h

/-- No text is both an address and a network. -/
theorem parseIP_of_parseCIDR (h : parseCIDR s = some (addr, net)) : parseIP s = none := by
  have hslash : '/' ∈ s.toList := by
    by_contra hnot
    have hnil : s.toList.dropWhile (fun c => decide (c ≠ '/')) = [] :=
      List.dropWhile_eq_nil_iff.mpr fun c hc => decide_eq_true (ne_of_mem_of_not_mem hc hnot)
    rw [parseCIDR] at h
    simp only [hnil] at h
    cases h
  rw [Option.eq_none_iff_forall_ne_some]
  intro ip hip
  rcases addressChar_of_parseIP hip '/' hslash with hc | hc | hc
  · cases hc
  · cases hc
  · cases hc

/-! ## Networks are read as they are written -/

theorem to4_ofV4Bits (v4 : BitVec 32) : (IP.ofV4Bits v4).to4 = some v4 := by
  have hlt := v4.isLt
  have hvalue : (IP.ofV4Bits v4).toNat = 65535 * 4294967296 + v4.toNat := by
    rw [IP.ofV4Bits, BitVec.toNat_ofNat]
    omega
  rw [IP.to4, hvalue, if_pos (by omega)]
  refine congrArg some (BitVec.eq_of_toNat_eq ?_)
  rw [BitVec.toNat_ofNat]
  omega

theorem slash_not_mem_string (ip : IP) : '/' ∉ ip.string.toList := by
  rw [toList_string]
  cases ip.to4 with
  | none =>
    intro h
    rcases mem_text6 h with h | h
    · cases h
    · exact absurd h (by decide)
  | some v4 =>
    intro h
    rcases mem_text4 h with h | h
    · cases h
    · exact absurd h (by decide)

/-- What stands in the text of a network. -/
theorem addressChar_of_mem_network (h : c ∈ net.string.toList) : AddressChar c ∨ c = '/' := by
  rw [IPNet.string, String.toList_append, String.toList_append, List.mem_append, List.mem_append,
    Nat.toString_eq_repr, Nat.toList_repr] at h
  rcases h with (h | h) | h
  · exact .inl (addressChar_of_mem_string h)
  · exact .inr (List.mem_singleton.mp h)
  · refine .inl (.inl ?_)
    rw [hexDigit, if_pos (Nat.isDigit_of_mem_toDigits (by decide) (by decide) h)]
    rfl

theorem colon_mem_string_iff (ip : IP) : ':' ∈ ip.string.toList ↔ ip.to4 = none := by
  rw [toList_string]
  cases ip.to4 with
  | none => simp [colon_mem_text6 ip]
  | some v4 =>
    refine ⟨fun h => ?_, fun h => by cases h⟩
    rcases mem_text4 h with h | h
    · cases h
    · exact absurd h (by decide)

/-- What an address, a slash and a number are read as. -/
theorem parseCIDR_append (ip : IP) {length : ℕ}
    (h : length ≤ if ip.to4 = none then 128 else 32) :
    parseCIDR (ip.string ++ "/" ++ toString length) =
      some (ip, IPNet.ofAddress ip.to4.isSome ip length) := by
  have hslash := slash_not_mem_string ip
  have hchars : (ip.string ++ "/" ++ toString length).toList =
      ip.string.toList ++ '/' :: Nat.toDigits 10 length := by
    rw [String.toList_append, String.toList_append, Nat.toString_eq_repr, Nat.toList_repr,
      List.append_assoc]
    rfl
  have hne : ∀ c ∈ ip.string.toList, decide (c ≠ '/') = true := fun c hc =>
    decide_eq_true fun heq => hslash (heq ▸ hc)
  have hall : (Nat.toDigits 10 length).all Char.isDigit = true :=
    List.all_eq_true.mpr fun c hc => Nat.isDigit_of_mem_toDigits (by decide) (by decide) hc
  have hv4 : decide (':' ∉ ip.string.toList) = ip.to4.isSome := by
    have hcolon := colon_mem_string_iff ip
    cases hip : ip.to4 with
    | none =>
      rw [hip] at hcolon
      simp [hcolon.mpr rfl]
    | some v4 =>
      rw [hip] at hcolon
      simp [hcolon]
  have hfits : ¬ (if ip.to4.isSome = true then 32 else 128) < length := by
    cases hip : ip.to4 with
    | none =>
      rw [hip] at h
      exact Nat.not_lt.mpr h
    | some v4 =>
      rw [hip] at h
      exact Nat.not_lt.mpr h
  unfold parseCIDR
  dsimp only
  rw [hchars, List.takeWhile_append_of_pos hne, List.dropWhile_append_of_pos hne,
    List.takeWhile_cons_of_neg (by simp), List.dropWhile_cons_of_neg (by simp), List.append_nil,
    String.ofList_toList, parseIP_string]
  dsimp only
  rw [hv4, Nat.ofDigitChars_ten_toDigits, if_neg]
  rw [not_or, not_or]
  exact ⟨Nat.toDigits_ne_nil, by rw [hall]; exact Bool.noConfusion, hfits⟩

/-- `net.ParseCIDR` reads what `String` of a network writes. -/
theorem parseCIDR_string (h : net.Masked) : parseCIDR net.string = some (net.number, net) := by
  cases net with
  | v4 number length =>
    obtain ⟨hlength, hmasked⟩ := h
    have hto4 := to4_ofV4Bits number
    have hread := @parseCIDR_append (IP.ofV4Bits number) length (by rw [hto4]; exact hlength)
    have hlow : BitVec.ofNat 32 (IP.ofV4Bits number).toNat = number := by
      have hlt := number.isLt
      refine BitVec.eq_of_toNat_eq ?_
      rw [IP.ofV4Bits, BitVec.toNat_ofNat, BitVec.toNat_ofNat]
      omega
    have hsame : IPNet.ofAddress true (IP.ofV4Bits number) length = .v4 number length := by
      rw [IPNet.ofAddress, if_pos rfl, hlow, hmasked]
    rw [hto4, Option.isSome_some, hsame] at hread
    exact hread
  | v6 number length =>
    obtain ⟨hlength, hmasked, hto4⟩ := h
    have hread := @parseCIDR_append number length (by rw [hto4]; exact hlength)
    have hsame : IPNet.ofAddress false number length = .v6 number length := by
      rw [IPNet.ofAddress, if_neg Bool.false_ne_true]
      dsimp only
      rw [hmasked, hto4]
    rw [hto4, Option.isSome_none, hsame] at hread
    exact hread

/-! ## The network of one host -/

theorem contains_host (v4 : BitVec 32) : (IPNet.v4 v4 32).contains ip = true ↔ ip = IP.ofV4Bits v4 := by
  have hmask : mask 32 32 = BitVec.allOnes 32 := by decide
  rw [IPNet.contains]
  simp only [hmask, BitVec.and_allOnes]
  constructor
  · intro h
    cases hother : ip.to4 with
    | none =>
      rw [hother] at h
      cases h
    | some other =>
      rw [hother, Option.any_some, decide_eq_true_eq] at h
      subst h
      have hvalue := to4_eq_some hother
      refine BitVec.eq_of_toNat_eq ?_
      have hlt := v4.isLt
      rw [hvalue, IP.ofV4Bits, BitVec.toNat_ofNat]
      omega
  · rintro rfl
    simp [to4_ofV4Bits]

end LukePanel.Library.NetAddress
