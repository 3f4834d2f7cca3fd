import LukePanel.Library.GoStrings
import Mathlib.Algebra.Group.Nat.Defs

/-! # Internet addresses as the Go standard library reads and writes them

`net.ParseIP`, `net.ParseCIDR`, `IP.String` and `net.SplitHostPort`. An address has 128 bits, those
of IPv4 behind a fixed beginning. -/
namespace LukePanel.Library.NetAddress
open LukePanel.Library.GoStrings

abbrev IP := BitVec 128

namespace IP

/-- The 16 bytes with the bytes of an IPv4 address at their end. -/
def ofV4 (a b c d : Nat) : IP :=
  BitVec.ofNat 128 (((((65535 * 256 + a) * 256) + b) * 256 + c) * 256 + d)

/-- `To4` -/
def to4 (ip : IP) : Option (BitVec 32) :=
  if ip.toNat / 4294967296 = 65535 then some (BitVec.ofNat 32 ip.toNat) else none

def isLoopback (ip : IP) : Bool :=
  match ip.to4 with
  | some v4 => v4.toNat / 16777216 = 127
  | none => ip = 1#128

end IP

/-! ## Reading -/

/-- A field of a dotted address. -/
def parseOctet (field : List Char) : Option Nat :=
  let n := Nat.ofDigitChars 10 field 0
  if field ≠ [] ∧ field.all Char.isDigit = true ∧ (field.length = 1 ∨ field.head? ≠ some '0') ∧
      n ≤ 255 then some n
  else none

def parseIPv4 (chars : List Char) : Option (Nat × Nat × Nat × Nat) :=
  match chars.splitOn '.' with
  | [a, b, c, d] => do return (← parseOctet a, ← parseOctet b, ← parseOctet c, ← parseOctet d)
  | _ => none

def hexDigit (c : Char) : Option Nat :=
  if c.isDigit then some (c.toNat - 48)
  else if 'a' ≤ c ∧ c ≤ 'f' then some (c.toNat - 87)
  else if 'A' ≤ c ∧ c ≤ 'F' then some (c.toNat - 55)
  else none

/-- The groups of 16 bits before the end of the text or of the room for them, where `::` stood
among them, and what is left of the text. -/
def readGroups : Nat → List Char → List Nat → Option Nat →
    Option (List Nat × Option Nat × List Char)
  | 0, chars, groups, ellipsis => some (groups, ellipsis, chars)
  | room + 1, chars, groups, ellipsis =>
    let digits := chars.takeWhile fun c => (hexDigit c).isSome
    let rest := chars.drop digits.length
    if digits = [] ∨ 4 < digits.length then none
    else if rest.head? = some '.' then
      -- the rest is an IPv4 address in place of the last two groups
      if ellipsis = none ∧ room ≠ 1 ∨ room < 1 then none
      else (parseIPv4 chars).map fun (a, b, c, d) =>
        (groups ++ [a * 256 + b, c * 256 + d], ellipsis, [])
    else
      let groups := groups ++ [digits.foldl (fun n c => n * 16 + (hexDigit c).getD 0) 0]
      match rest with
      | [] => some (groups, ellipsis, [])
      | ':' :: ':' :: more =>
        if ellipsis.isSome then none
        else if more = [] then some (groups, some groups.length, [])
        else readGroups room more groups (some groups.length)
      | ':' :: c :: more => readGroups room (c :: more) groups ellipsis
      | _ => none

def ofGroups (groups : List Nat) : IP := BitVec.ofNat 128 (groups.foldl (· * 65536 + ·) 0)

def parseIPv6 (chars : List Char) : Option IP :=
  let start : Option Nat × List Char :=
    match chars with
    | ':' :: ':' :: rest => (some 0, rest)
    | _ => (none, chars)
  if start.1.isSome ∧ start.2 = [] then some 0#128
  else
    match readGroups 8 start.2 [] start.1 with
    | some (groups, some at_, []) =>
      if groups.length < 8 then
        some (ofGroups (groups.take at_ ++ List.replicate (8 - groups.length) 0 ++ groups.drop at_))
      else none
    | some (groups, none, []) => if groups.length < 8 then none else some (ofGroups groups)
    | _ => none

/-- `net.ParseIP`, which takes no zone. -/
def parseIP (s : String) : Option IP :=
  let chars := s.toList
  if '%' ∈ chars then none
  else
    match chars.find? fun c => c = '.' ∨ c = ':' with
    | some '.' => (parseIPv4 chars).map fun (a, b, c, d) => IP.ofV4 a b c d
    | some _ => parseIPv6 chars
    | none => none

example : parseIP "::ffff:192.0.2.1" = parseIP "192.0.2.1" := by decide +kernel

/-! ## Networks -/

/-- The bits of a mask. -/
def mask (width length : Nat) : BitVec width := ~~~(BitVec.allOnes width >>> length)

/-! ## Writing -/

def groupsOf (ip : IP) : List Nat :=
  (List.range 8).map fun i => ip.toNat / 65536 ^ (7 - i) % 65536

def hexText (n : Nat) : List Char := Nat.toDigits 16 n

/-- The first of the longest runs of two or more zeros, with its length. -/
def longestZeros (groups : List Nat) : Option (Nat × Nat) :=
  (List.range groups.length).foldl (fun best i =>
    let run := ((groups.drop i).takeWhile (· = 0)).length
    if 2 ≤ run ∧ (best.map (·.2)).getD 0 < run then some (i, run) else best) none

def joinGroups (groups : List Nat) : List Char := [':'].intercalate (groups.map hexText)

/-- `IP.String` -/
def IP.string (ip : IP) : String :=
  match ip.to4 with
  | some v4 =>
    let n := v4.toNat
    toString (n / 16777216) ++ "." ++ toString (n / 65536 % 256) ++ "." ++
      toString (n / 256 % 256) ++ "." ++ toString (n % 256)
  | none =>
    let groups := groupsOf ip
    match longestZeros groups with
    | some (start, run) => String.ofList
        (joinGroups (groups.take start) ++ [':', ':'] ++ joinGroups (groups.drop (start + run)))
    | none => String.ofList (joinGroups groups)

example : (parseIP "2001:DB8:0:0:1::").map IP.string = some "2001:db8:0:0:1::" := by decide +kernel

/-! ## Hosts and ports -/

/-- `strings.Trim(s, "[]")` -/
def trimBrackets (s : String) : String :=
  let bracket (c : Char) : Bool := c = '[' || c = ']'
  String.ofList ((s.toList.dropWhile bracket).reverse.dropWhile bracket).reverse

/-- `net.SplitHostPort` -/
def splitHostPort (s : String) : Option (String × String) :=
  let chars := s.toList
  let port := (chars.reverse.takeWhile (· ≠ ':')).reverse
  let before := chars.take (chars.length - port.length - 1)
  if ':' ∉ chars then none
  else
    match chars with
    | '[' :: rest =>
      let host := rest.takeWhile (· ≠ ']')
      if before = '[' :: host ++ [']'] ∧ '[' ∉ rest ∧ ']' ∉ port then
        some (String.ofList host, String.ofList port)
      else none
    | _ =>
      if ':' ∈ before ∨ '[' ∈ chars ∨ ']' ∈ chars then none
      else some (String.ofList before, String.ofList port)

example : splitHostPort "[2001:db8::1]:443" = some ("2001:db8::1", "443") := by decide +kernel

theorem dropWhile_eq_self {p : Char → Bool} {s : List Char} (h : ∀ c ∈ s, p c = false) :
    s.dropWhile p = s := by
  cases s with
  | nil => rfl
  | cons c rest => exact List.dropWhile_cons_of_neg (by simp [h c List.mem_cons_self])

theorem trimBrackets_eq_self {s : String} (h : ∀ c ∈ s.toList, c ≠ '[' ∧ c ≠ ']') :
    trimBrackets s = s := by
  have hnot : ∀ c ∈ s.toList, (decide (c = '[') || decide (c = ']')) = false := by
    intro c hc
    simpa using h c hc
  unfold trimBrackets
  dsimp only
  rw [dropWhile_eq_self hnot, dropWhile_eq_self fun c hc => hnot c (List.mem_reverse.mp hc),
    List.reverse_reverse, String.ofList_toList]

theorem trimBrackets_literal {literal : List Char} (h : ∀ c ∈ literal, c ≠ '[' ∧ c ≠ ']') :
    trimBrackets (String.ofList ('[' :: literal ++ [']'])) = String.ofList literal := by
  have hnot : ∀ c ∈ literal, (decide (c = '[') || decide (c = ']')) = false := by
    intro c hc
    simpa using h c hc
  unfold trimBrackets
  dsimp only
  rw [String.toList_ofList, List.cons_append, List.dropWhile_cons_of_pos (by decide)]
  cases literal with
  | nil => decide
  | cons c rest =>
    rw [List.cons_append, List.dropWhile_cons_of_neg (by simp [hnot c List.mem_cons_self]),
      ← List.cons_append, List.reverse_append, List.reverse_singleton, List.singleton_append,
      List.dropWhile_cons_of_pos (by decide),
      dropWhile_eq_self fun d hd => hnot d (List.mem_reverse.mp hd), List.reverse_reverse]

/-- What stands after the last of these characters, and before it. -/
theorem takeWhile_last {sep : Char} (before : List Char) {after : List Char} (h : sep ∉ after) :
    ((before ++ sep :: after).reverse.takeWhile (· ≠ sep)).reverse = after ∧
      (before ++ sep :: after).take ((before ++ sep :: after).length - after.length - 1) = before := by
  constructor
  · rw [List.reverse_append, List.reverse_cons, List.append_assoc,
      List.takeWhile_append_of_pos fun c hc => ?_]
    · simp
    · have hne : c ≠ sep := fun heq => h (heq ▸ List.mem_reverse.mp hc)
      simpa using hne
  · have hlen : (before ++ sep :: after).length - after.length - 1 = before.length := by
      rw [List.length_append, List.length_cons]
      omega
    rw [hlen, List.take_left]

/-- Without a colon there is no port. -/
theorem splitHostPort_none {s : String} (h : ':' ∉ s.toList) : splitHostPort s = none := if_pos h

theorem isDigit_ne {c : Char} (h : c.isDigit = true) : c ≠ ':' ∧ c ≠ '[' ∧ c ≠ ']' := by
  refine ⟨?_, ?_, ?_⟩ <;>
  · rintro rfl
    revert h
    decide

theorem splitHostPort_name {host port : List Char} (hport : ∀ c ∈ port, c.isDigit = true)
    (hhost : ∀ c ∈ host, c ≠ ':' ∧ c ≠ '[' ∧ c ≠ ']') :
    splitHostPort (String.ofList (host ++ ':' :: port)) =
      some (String.ofList host, String.ofList port) := by
  have hcolon : ':' ∉ port := fun hmem => (isDigit_ne (hport _ hmem)).1 rfl
  obtain ⟨hlast, hbefore⟩ := takeWhile_last host hcolon
  have hhead : ∀ rest, host ++ ':' :: port ≠ '[' :: rest := by
    intro rest heq
    cases host with
    | nil => simp at heq
    | cons c more => exact (hhost c List.mem_cons_self).2.1 (List.cons.inj heq).1
  have hclean : ¬ (':' ∈ host ∨ '[' ∈ host ++ ':' :: port ∨ ']' ∈ host ++ ':' :: port) := by
    rintro (hmem | hmem | hmem)
    · exact (hhost _ hmem).1 rfl
    · rcases List.mem_append.mp hmem with hmem | hmem
      · exact (hhost _ hmem).2.1 rfl
      · exact (isDigit_ne (hport _ ((List.mem_cons.mp hmem).resolve_left (by decide)))).2.1 rfl
    · rcases List.mem_append.mp hmem with hmem | hmem
      · exact (hhost _ hmem).2.2 rfl
      · exact (isDigit_ne (hport _ ((List.mem_cons.mp hmem).resolve_left (by decide)))).2.2 rfl
  unfold splitHostPort
  rw [String.toList_ofList]
  dsimp only
  rw [hlast, hbefore, if_neg (by simp)]
  split
  · rename_i rest heq
    exact absurd heq (hhead rest)
  · exact if_neg hclean

/-- A literal in brackets, with a port. -/
theorem splitHostPort_literal {literal port : List Char} (hport : ∀ c ∈ port, c.isDigit = true)
    (hliteral : ∀ c ∈ literal, c ≠ '[' ∧ c ≠ ']') :
    splitHostPort (String.ofList ('[' :: literal ++ ']' :: ':' :: port)) =
      some (String.ofList literal, String.ofList port) := by
  have hcolon : ':' ∉ port := fun hmem => (isDigit_ne (hport _ hmem)).1 rfl
  have hsplit : '[' :: literal ++ ']' :: ':' :: port = ('[' :: literal ++ [']']) ++ ':' :: port := by
    simp
  obtain ⟨hlast, hbefore⟩ := takeWhile_last ('[' :: literal ++ [']']) hcolon
  have htake : (literal ++ ']' :: ':' :: port).takeWhile (· ≠ ']') = literal := by
    rw [List.takeWhile_append_of_pos fun c hc => by simpa using (hliteral c hc).2]
    simp
  have hopen : '[' ∉ literal ++ ']' :: ':' :: port := by
    intro hmem
    rcases List.mem_append.mp hmem with hmem | hmem
    · exact (hliteral _ hmem).1 rfl
    · have hmem := (List.mem_cons.mp hmem).resolve_left (by decide)
      exact (isDigit_ne (hport _ ((List.mem_cons.mp hmem).resolve_left (by decide)))).2.1 rfl
  have hclose : ']' ∉ port := fun hmem => (isDigit_ne (hport _ hmem)).2.2 rfl
  unfold splitHostPort
  rw [String.toList_ofList, hsplit]
  dsimp only
  rw [hlast, hbefore, if_neg (by simp), ← hsplit]
  simp only [List.cons_append]
  rw [htake, if_pos ⟨rfl, hopen, hclose⟩]

/-- A literal in brackets, without one. -/
theorem splitHostPort_literal_none {literal : List Char} (hcolon : ':' ∈ literal) :
    splitHostPort (String.ofList ('[' :: literal ++ [']'])) = none := by
  obtain ⟨as, bs, hs, hnot⟩ := List.eq_append_cons_of_mem (List.mem_reverse.mpr hcolon)
  have hliteral : literal = bs.reverse ++ ':' :: as.reverse := by
    rw [← List.reverse_reverse literal, hs]
    simp
  have hafter : ':' ∉ as.reverse ++ [']'] := by
    simp [hnot]
  have hsplit : '[' :: literal ++ [']'] = ('[' :: bs.reverse) ++ ':' :: (as.reverse ++ [']']) := by
    simp [hliteral]
  obtain ⟨hlast, hbefore⟩ := takeWhile_last ('[' :: bs.reverse) hafter
  unfold splitHostPort
  rw [String.toList_ofList, hsplit]
  dsimp only
  rw [hlast, hbefore, if_neg (by simp)]
  simp only [List.cons_append]
  exact if_neg fun h => h.2.2 (by simp)

end LukePanel.Library.NetAddress
