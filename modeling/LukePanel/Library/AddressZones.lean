import LukePanel.Library.AddressText

/-! # Addresses with zones

`netip.ParseAddr` and what an address is for. -/
namespace LukePanel.Library.NetAddress
open LukePanel.Library.GoStrings

/-! ## Kinds of addresses -/

namespace IP

def isLinkLocalUnicast (ip : IP) : Bool :=
  match ip.to4 with
  | some v4 => v4.toNat / 65536 = 169 * 256 + 254
  | none => ip.toNat / 2 ^ 118 = 1018

def isLinkLocalMulticast (ip : IP) : Bool :=
  match ip.to4 with
  | some v4 => v4.toNat / 256 = 224 * 65536
  | none => ip.toNat / 2 ^ 120 = 255 && ip.toNat / 2 ^ 112 % 16 = 2

def isMulticast (ip : IP) : Bool :=
  match ip.to4 with
  | some v4 => v4.toNat / 2 ^ 28 = 14
  | none => ip.toNat / 2 ^ 120 = 255

/-- It stands for no host, in either family. -/
def isUnspecified (ip : IP) : Bool := ip = 0#128 || ip = ofV4 0 0 0 0

end IP

/-- `netip.Addr`; `is4` tells an IPv4 address from one that is mapped into IPv6. -/
structure Addr where
  ip : IP
  is4 : Bool
  zone : String
  deriving DecidableEq

namespace Addr

/-- The other methods look through the mapping, this one does not. -/
def isUnspecified (addr : Addr) : Bool :=
  addr = ⟨IP.ofV4 0 0 0 0, true, ""⟩ || addr = ⟨0#128, false, ""⟩

end Addr

def isMark (c : Char) : Bool := c = '.' || c = ':' || c = '%'

def parseAddr (s : String) : Option Addr :=
  let chars := s.toList
  if chars.find? isMark = some '.' then
    (parseIPv4 chars).map fun (a, b, c, d) => ⟨IP.ofV4 a b c d, true, ""⟩
  else if chars.find? isMark = some ':' then
    let zone := chars.dropWhile (· ≠ '%')
    if zone = ['%'] then none
    else (parseIPv6 (chars.takeWhile (· ≠ '%'))).map fun ip => ⟨ip, false, String.ofList zone.tail⟩
  else none

example : parseAddr "fe80::1%eth0" = some ⟨(0xfe80#128 <<< 112) + 1#128, false, "eth0"⟩ := by
  decide +kernel

/-- Without a zone `net.ParseIP` reads the same. -/
theorem parseIP_of_parseAddr {s : String} {addr : Addr} (h : parseAddr s = some addr)
    (hzone : addr.zone = "") : parseIP s = some addr.ip := by
  have hfind (hpercent : '%' ∉ s.toList) :
      s.toList.find? (fun c => decide (c = '.' ∨ c = ':')) = s.toList.find? isMark := by
    rw [← List.head?_filter, ← List.head?_filter]
    refine congrArg List.head? (List.filter_congr fun c hc => ?_)
    have hne : c ≠ '%' := ne_of_mem_of_not_mem hc hpercent
    simp [isMark, hne]
  unfold parseAddr at h
  dsimp only at h
  unfold parseIP
  dsimp only
  split at h
  · rename_i hdot
    obtain ⟨fields, hfields, rfl⟩ := Option.map_eq_some_iff.mp h
    have hpercent : '%' ∉ s.toList := by
      intro hmem
      rcases isDigit_of_parseIPv4 hfields '%' hmem with hc | hc
      · cases hc
      · cases hc
    rw [if_neg hpercent, hfind hpercent, hdot]
    simp only [hfields, Option.map_some]
  · split at h
    · rename_i hcolon
      obtain ⟨hone, h⟩ := Option.ite_none_left_eq_some.mp h
      obtain ⟨ip, hip, rfl⟩ := Option.map_eq_some_iff.mp h
      have hpercent : '%' ∉ s.toList := by
        intro hmem
        have hrest : (s.toList.dropWhile fun c => decide (c ≠ '%')) ≠ [] := by
          intro hnil
          exact absurd (List.dropWhile_eq_nil_iff.mp hnil '%' hmem) (by decide)
        obtain ⟨c, rest, hcons⟩ := List.exists_cons_of_ne_nil hrest
        have hc := List.head?_dropWhile_not (fun c => decide (c ≠ '%')) s.toList
        have htail : rest = [] := by
          have hnil := congrArg String.toList hzone
          rwa [hcons, List.tail_cons, String.toList_ofList] at hnil
        rw [hcons] at hone hc
        obtain rfl : c = '%' := by simpa using hc
        exact hone (by rw [htail])
      have hall : s.toList.takeWhile (fun c => decide (c ≠ '%')) = s.toList := by
        rw [List.takeWhile_eq_self_iff]
        exact fun c hc => decide_eq_true (ne_of_mem_of_not_mem hc hpercent)
      rw [if_neg hpercent, hfind hpercent, hcolon]
      rwa [hall] at hip
    · cases h

/-! ## Lower case -/

/-- What lower case leaves of a character in an address. -/
structure Lowered (c d : Char) : Prop where
  hex : hexDigit d = hexDigit c
  mark : isMark c = true ∨ isMark d = true → d = c
  digit : c.isDigit = true ∨ d.isDigit = true → d = c

instance (c d : Char) : Decidable (Lowered c d) :=
  decidable_of_iff (hexDigit d = hexDigit c ∧ (isMark c = true ∨ isMark d = true → d = c) ∧
      (c.isDigit = true ∨ d.isDigit = true → d = c))
    ⟨fun h => ⟨h.1, h.2.1, h.2.2⟩, fun h => ⟨h.hex, h.mark, h.digit⟩⟩

theorem lowered_ascii : ∀ n < 128, Lowered (Char.ofNat n) (lowerChar (Char.ofNat n)) := by
  decide +kernel

theorem lowered_lowerChar (c : Char) : Lowered c (lowerChar c) := by
  by_cases hascii : c.toNat < 128
  · have hc := lowered_ascii c.toNat hascii
    rwa [Char.ofNat_toNat] at hc
  by_cases hi : c.toNat = 304
  · have hc : c = Char.ofNat 304 := by rw [← hi, Char.ofNat_toNat]
    rw [hc]
    decide
  by_cases hk : c.toNat = 8490
  · have hc : c = Char.ofNat 8490 := by rw [← hk, Char.ofNat_toNat]
    rw [hc]
    decide
  have hself : lowerChar c = c := by
    rw [lowerChar, if_neg hi, if_neg hk]
    refine dif_neg ?_
    rintro ⟨-, hle⟩
    have hz : c.toNat ≤ 90 := hle
    omega
  rw [hself]
  exact ⟨rfl, fun _ => rfl, fun _ => rfl⟩

section
variable {f : Char → Char} (hf : ∀ c, Lowered c (f c))
include hf

theorem eq_of_isMark_map {c d : Char} (hd : isMark d = true) : f c = d ↔ c = d := by
  constructor
  · intro h
    rw [← (hf c).mark (.inr (h ▸ hd)), h]
  · rintro rfl
    exact (hf c).mark (.inl hd)

theorem isMark_map (c : Char) : isMark (f c) = isMark c := by
  rw [Bool.eq_iff_iff]
  constructor
  · intro h
    rwa [(hf c).mark (.inr h)] at h
  · intro h
    rwa [(hf c).mark (.inl h)]

omit hf in
theorem map_eq_self {chars : List Char} (h : ∀ c ∈ chars, f c = c) : chars.map f = chars :=
  (List.map_congr_left h).trans (List.map_id _)

theorem parseIPv4_map (chars : List Char) : parseIPv4 (chars.map f) = parseIPv4 chars := by
  have hsame : (parseIPv4 chars).isSome ∨ (parseIPv4 (chars.map f)).isSome → chars.map f = chars := by
    rintro (h | h)
    · obtain ⟨fields, hfields⟩ := Option.isSome_iff_exists.mp h
      refine map_eq_self fun c hc => ?_
      rcases isDigit_of_parseIPv4 hfields c hc with hdigit | rfl
      · exact (hf c).digit (.inl hdigit)
      · exact (hf '.').mark (.inl (by decide))
    · obtain ⟨fields, hfields⟩ := Option.isSome_iff_exists.mp h
      refine map_eq_self fun c hc => ?_
      rcases isDigit_of_parseIPv4 hfields (f c) (List.mem_map_of_mem hc) with hdigit | hdot
      · exact (hf c).digit (.inr hdigit)
      · exact (hf c).mark (.inr (hdot ▸ by decide))
  by_cases h : (parseIPv4 chars).isSome ∨ (parseIPv4 (chars.map f)).isSome
  · rw [hsame h]
  · rw [not_or, Option.not_isSome_iff_eq_none, Option.not_isSome_iff_eq_none] at h
    rw [h.1, h.2]

theorem readGroups_map (room : ℕ) (chars : List Char) (groups : List ℕ) (ellipsis : Option ℕ) :
    readGroups room (chars.map f) groups ellipsis =
      (readGroups room chars groups ellipsis).map fun r => (r.1, r.2.1, r.2.2.map f) := by
  induction room generalizing chars groups ellipsis with
  | zero => rfl
  | succ room ih =>
    have htake : (chars.map f).takeWhile (fun c => (hexDigit c).isSome) =
        (chars.takeWhile fun c => (hexDigit c).isSome).map f := by
      rw [List.takeWhile_map]
      congr 1
      refine congrArg (List.takeWhile · chars) (funext fun c => ?_)
      rw [Function.comp_apply, (hf c).hex]
    rw [readGroups, readGroups]
    dsimp only
    rw [htake, List.length_map, ← List.map_drop, parseIPv4_map hf]
    generalize chars.takeWhile (fun c => (hexDigit c).isSome) = digits
    have hvalue : (digits.map f).foldl (fun n c => n * 16 + (hexDigit c).getD 0) 0 =
        digits.foldl (fun n c => n * 16 + (hexDigit c).getD 0) 0 := by
      rw [List.foldl_map]
      refine congrArg (List.foldl · 0 digits) (funext fun n => funext fun c => ?_)
      rw [(hf c).hex]
    rw [hvalue]
    generalize digits.foldl (fun n c => n * 16 + (hexDigit c).getD 0) 0 = value
    by_cases hbad : digits = [] ∨ 4 < digits.length
    · rw [if_pos hbad, if_pos (hbad.imp_left List.map_eq_nil_iff.mpr), Option.map_none]
    rw [if_neg hbad, if_neg (mt (Or.imp_left List.map_eq_nil_iff.mp) hbad)]
    generalize chars.drop digits.length = rest
    have hhead : (rest.map f).head? = some '.' ↔ rest.head? = some '.' := by
      rw [List.head?_map]
      cases rest.head? with
      | none => simp
      | some c => simp [eq_of_isMark_map hf (by decide : isMark '.' = true)]
    by_cases hdot : rest.head? = some '.'
    · rw [if_pos hdot, if_pos (hhead.mpr hdot)]
      split
      · rfl
      · cases parseIPv4 chars <;> rfl
    rw [if_neg hdot, if_neg (mt hhead.mp hdot)]
    have hcolon (c : Char) : f c = ':' ↔ c = ':' := eq_of_isMark_map hf (by decide)
    cases rest with
    | nil => rfl
    | cons c rest =>
      by_cases hc : c = ':'
      · subst hc
        rw [List.map_cons, (hcolon ':').mpr rfl]
        cases rest with
        | nil => rfl
        | cons d rest =>
          by_cases hd : d = ':'
          · subst hd
            rw [List.map_cons, (hcolon ':').mpr rfl]
            simp only []
            split
            · rfl
            · by_cases hnil : rest = []
              · rw [if_pos hnil, if_pos (List.map_eq_nil_iff.mpr hnil)]
                rfl
              · rw [if_neg hnil, if_neg (mt List.map_eq_nil_iff.mp hnil), ih]
          · have hd' : f d ≠ ':' := mt (hcolon d).mp hd
            have hih := ih (d :: rest) (groups ++ [value]) ellipsis
            rw [List.map_cons] at hih ⊢
            simp only [hih]
      · have hc' : f c ≠ ':' := mt (hcolon c).mp hc
        rw [List.map_cons]
        split
        · rename_i heq
          exact absurd heq (List.cons_ne_nil _ _)
        · rename_i heq
          exact absurd (List.cons.inj heq).1 hc'
        · rename_i heq
          exact absurd (List.cons.inj heq).1 hc'
        · split
          · rename_i heq
            exact absurd heq (List.cons_ne_nil _ _)
          · rename_i heq
            exact absurd (List.cons.inj heq).1 hc
          · rename_i heq
            exact absurd (List.cons.inj heq).1 hc
          · rfl

/-- What `parseIPv6` makes of the groups behind its start. -/
def ofRead (start : Option ℕ × List Char) : Option IP :=
  if start.1.isSome ∧ start.2 = [] then some 0#128
  else
    match readGroups 8 start.2 [] start.1 with
    | some (groups, some at_, []) =>
      if groups.length < 8 then
        some (ofGroups (groups.take at_ ++ List.replicate (8 - groups.length) 0 ++ groups.drop at_))
      else none
    | some (groups, none, []) => if groups.length < 8 then none else some (ofGroups groups)
    | _ => none

omit hf in
theorem parseIPv6_double_colon (rest : List Char) :
    parseIPv6 (':' :: ':' :: rest) = ofRead (some 0, rest) := rfl

omit hf in
theorem parseIPv6_other {chars : List Char} (h : ∀ rest, chars ≠ ':' :: ':' :: rest) :
    parseIPv6 chars = ofRead (none, chars) := by
  unfold parseIPv6
  split
  · rename_i rest
    exact absurd rfl (h rest)
  · rfl

theorem ofRead_map (ellipsis : Option ℕ) (rest : List Char) :
    ofRead (ellipsis, rest.map f) = ofRead (ellipsis, rest) := by
  unfold ofRead
  dsimp only
  rw [readGroups_map hf]
  by_cases hnil : rest = []
  · subst hnil
    rfl
  · rw [if_neg fun h => hnil (List.map_eq_nil_iff.mp h.2), if_neg fun h => hnil h.2]
    cases readGroups 8 rest [] ellipsis with
    | none => rfl
    | some r =>
      obtain ⟨groups, at_, left⟩ := r
      cases left with
      | nil => rfl
      | cons c left => cases at_ <;> rfl

theorem parseIPv6_map (chars : List Char) : parseIPv6 (chars.map f) = parseIPv6 chars := by
  have hcolon (c : Char) : f c = ':' ↔ c = ':' := eq_of_isMark_map hf (by decide)
  by_cases hstart : ∃ rest, chars = ':' :: ':' :: rest
  · obtain ⟨rest, rfl⟩ := hstart
    rw [List.map_cons, List.map_cons, (hcolon ':').mpr rfl, parseIPv6_double_colon,
      parseIPv6_double_colon, ofRead_map hf]
  · have hmap : ∀ rest, chars.map f ≠ ':' :: ':' :: rest := by
      intro rest h
      obtain ⟨c, more, rfl, hc, hmore⟩ := List.map_eq_cons_iff.mp h
      obtain ⟨d, last, rfl, hd, -⟩ := List.map_eq_cons_iff.mp hmore
      exact hstart ⟨last, by rw [(hcolon c).mp hc, (hcolon d).mp hd]⟩
    rw [parseIPv6_other hmap, parseIPv6_other fun rest h => hstart ⟨rest, h⟩, ofRead_map hf]

end

theorem find?_isMark_toLower (s : String) :
    (toLower s).toList.find? isMark = s.toList.find? isMark := by
  rw [toLower, String.toList_ofList, List.find?_map]
  have hmark : isMark ∘ lowerChar = isMark := funext (isMark_map lowered_lowerChar)
  rw [hmark]
  cases hfind : s.toList.find? isMark with
  | none => rfl
  | some c =>
    have hc : isMark c = true := List.find?_some hfind
    exact congrArg some ((lowered_lowerChar c).mark (.inl hc))

/-- Lower case changes only the zone. -/
theorem parseAddr_toLower (s : String) : parseAddr (toLower s) =
    (parseAddr s).map fun addr => { addr with zone := toLower addr.zone } := by
  have hpercent : (fun c => decide (c ≠ '%')) ∘ lowerChar = fun c => decide (c ≠ '%') :=
    funext fun c => by
      rw [Function.comp_apply, decide_eq_decide]
      exact not_congr (eq_of_isMark_map lowered_lowerChar (by decide))
  have htake : (toLower s).toList.takeWhile (fun c => decide (c ≠ '%')) =
      (s.toList.takeWhile fun c => decide (c ≠ '%')).map lowerChar := by
    rw [toLower, String.toList_ofList, List.takeWhile_map, hpercent]
  have hdrop : (toLower s).toList.dropWhile (fun c => decide (c ≠ '%')) =
      (s.toList.dropWhile fun c => decide (c ≠ '%')).map lowerChar := by
    rw [toLower, String.toList_ofList, List.dropWhile_map, hpercent]
  have hlower : (toLower s).toList = s.toList.map lowerChar := String.toList_ofList
  unfold parseAddr
  dsimp only
  rw [find?_isMark_toLower, htake, hdrop, hlower, parseIPv4_map lowered_lowerChar,
    parseIPv6_map lowered_lowerChar]
  split
  · cases parseIPv4 s.toList <;> rfl
  split
  · by_cases hzone : s.toList.dropWhile (fun c => decide (c ≠ '%')) = ['%']
    · rw [if_pos hzone, hzone]
      rfl
    · rw [if_neg hzone, if_neg]
      · cases parseIPv6 (s.toList.takeWhile fun c => decide (c ≠ '%')) with
        | none => rfl
        | some ip =>
          rw [Option.map_some, Option.map_some, Option.map_some, ← List.map_tail, toLower,
            String.toList_ofList]
      · intro hmap
        obtain ⟨c, rest, hrest, hc, hnil⟩ := List.map_eq_cons_iff.mp hmap
        rw [(eq_of_isMark_map lowered_lowerChar (by decide)).mp hc, List.map_eq_nil_iff.mp hnil] at hrest
        exact hzone hrest
  · rfl

end LukePanel.Library.NetAddress
