import LukePanel.Library.AddressText

/-! # Scalars of YAML

Plain scalars of letters, digits, `_`, `.` and `-` that begin with a letter or a digit, with the core
schema of YAML 1.2, and scalars in double quotes on one line. -/
namespace LukePanel.Library.Yaml
open LukePanel.Library.NetAddress (hexDigit hexDigit_digitChar)

abbrev Text := List Char

inductive Scalar where
  | null
  | bool (value : Bool)
  | int (value : ℕ)
  | float (text : Text)
  | str (value : Text)
  deriving DecidableEq

/-! ## The core schema -/

def nulls : List String := ["null", "Null", "NULL"]

def trues : List String := ["true", "True", "TRUE"]

def falses : List String := ["false", "False", "FALSE"]

def isOctal (text : Text) : Bool :=
  decide ("0o".toList <+: text) && decide (2 < text.length) &&
    (text.drop 2).all fun c => '0' ≤ c && c ≤ '7'

def isHex (text : Text) : Bool :=
  decide ("0x".toList <+: text) && decide (2 < text.length) &&
    (text.drop 2).all fun c => (hexDigit c).isSome

/-- Nothing, or an exponent. -/
def isExponent : Text → Bool
  | [] => true
  | e :: rest =>
    let digits := if rest.head? = some '+' ∨ rest.head? = some '-' then rest.tail else rest
    (e = 'e' || e = 'E') && !digits.isEmpty && digits.all Char.isDigit

/-- Digits, a point with or without digits behind it, an exponent. -/
def isFloat (text : Text) : Bool :=
  let rest := text.dropWhile Char.isDigit
  text.head?.any Char.isDigit &&
    isExponent (if rest.head? = some '.' then rest.tail.dropWhile Char.isDigit else rest)

def resolve (text : Text) : Scalar :=
  if String.ofList text ∈ nulls then .null
  else if String.ofList text ∈ trues then .bool true
  else if String.ofList text ∈ falses then .bool false
  else if text.all Char.isDigit then .int (Nat.ofDigitChars 10 text 0)
  else if isOctal text then .int (Nat.ofDigitChars 8 (text.drop 2) 0)
  else if isHex text then .int ((text.drop 2).foldl (fun n c => n * 16 + (hexDigit c).getD 0) 0)
  else if isFloat text then .float text
  else .str text

example : ["web", "123", "0x1F", "1.5e-3", "1.5.2", "Null", "yes"].map (resolve ·.toList) =
    [.str "web".toList, .int 123, .int 31, .float "1.5e-3".toList, .str "1.5.2".toList, .null,
      .str "yes".toList] := by decide +kernel

/-- The schema takes the text for something else than a string. -/
def isTyped (text : Text) : Bool :=
  decide (String.ofList text ∈ nulls ++ trues ++ falses) || text.all Char.isDigit || isOctal text ||
    isHex text || isFloat text

theorem resolve_eq_str_iff {text value : Text} :
    resolve text = .str value ↔ isTyped text = false ∧ value = text := by
  have hmem : String.ofList text ∈ nulls ++ trues ++ falses ↔ (String.ofList text ∈ nulls ∨
      String.ofList text ∈ trues) ∨ String.ofList text ∈ falses := by
    rw [List.mem_append, List.mem_append]
  simp only [resolve, isTyped, hmem, Bool.or_eq_false_iff, decide_eq_false_iff_not, not_or]
  constructor
  · intro h
    split_ifs at h with hnull htrue hfalse hdigits hoctal hhex hfloat
    cases h
    simp_all
  · rintro ⟨⟨⟨⟨⟨⟨⟨hnull, htrue⟩, hfalse⟩, hdigits⟩, hoctal⟩, hhex⟩, hfloat⟩, rfl⟩
    rw [if_neg hnull, if_neg htrue, if_neg hfalse, hdigits, hoctal, hhex, hfloat]
    rfl

/-! ## Double quotes -/

/-- Escapes of one character. -/
def escaped (c : Char) : Option Char :=
  match c with
  | '0' => some '\x00'
  | 'a' => some '\x07'
  | 'b' => some '\x08'
  | 't' => some '\t'
  | '\t' => some '\t'
  | 'n' => some '\n'
  | 'v' => some '\x0b'
  | 'f' => some '\x0c'
  | 'r' => some '\r'
  | 'e' => some '\x1b'
  | ' ' => some ' '
  | '"' => some '"'
  | '/' => some '/'
  | '\\' => some '\\'
  | 'N' => some '\u0085'
  | '_' => some '\u00a0'
  | 'L' => some '\u2028'
  | 'P' => some '\u2029'
  | _ => none

/-- The number of digits behind an escape with digits. -/
def hexLength (c : Char) : Option ℕ :=
  match c with
  | 'x' => some 2
  | 'u' => some 4
  | 'U' => some 8
  | _ => none

/-- Where the reader of a quoted scalar is: at a character, behind a backslash, or in front of digits
of a number of which the value is known. -/
inductive Mode where
  | text
  | escape
  | hex (digits value : ℕ)

def prepend (c : Char) (r : Option (Text × Text)) : Option (Text × Text) :=
  r.map fun r => (c :: r.1, r.2)

/-- The scalar up to the closing quote, and what follows it. -/
def unquote : Mode → Text → Option (Text × Text)
  | _, [] => none
  | .text, c :: rest =>
    if c = '"' then some ([], rest)
    else if c = '\\' then unquote .escape rest
    else if c < ' ' ∧ c ≠ '\t' then none
    else prepend c (unquote .text rest)
  | .escape, c :: rest =>
    match escaped c, hexLength c with
    | some d, _ => prepend d (unquote .text rest)
    | none, some digits => unquote (.hex digits 0) rest
    | none, none => none
  | .hex digits value, c :: rest =>
    match hexDigit c with
    | none => none
    | some d =>
      if 1 < digits then unquote (.hex (digits - 1) (value * 16 + d)) rest
      else if (value * 16 + d).isValidChar then
        prepend (Char.ofNat (value * 16 + d)) (unquote .text rest)
      else none

/-- A character as digits, the first one first. -/
def hexDigits : ℕ → ℕ → Text
  | 0, _ => []
  | digits + 1, n => (n / 16 ^ digits % 16).digitChar :: hexDigits digits n

/-- A text is read back if each of its characters is. -/
theorem unquote_flatMap {quote : Char → Text} {text : Text}
    (h : ∀ c ∈ text, ∀ rest, unquote .text (quote c ++ rest) = prepend c (unquote .text rest))
    (rest : Text) : unquote .text (text.flatMap quote ++ '"' :: rest) = some (text, rest) := by
  induction text with
  | nil => rfl
  | cons c text ih =>
    rw [List.forall_mem_cons] at h
    rw [List.flatMap_cons, List.append_assoc, h.1, ih h.2]
    rfl

theorem unquote_hex {n : ℕ} (hn : n.isValidChar) (digits value : ℕ) (rest : Text)
    (hvalue : value * 16 ^ (digits + 1) + n % 16 ^ (digits + 1) = n) :
    unquote (.hex (digits + 1) value) (hexDigits (digits + 1) n ++ rest) =
      prepend (Char.ofNat n) (unquote .text rest) := by
  induction digits generalizing value with
  | zero =>
    have hlast : value * 16 + n / 16 ^ 0 % 16 = n := by
      rw [Nat.pow_zero, Nat.div_one]
      rwa [Nat.zero_add, Nat.pow_one] at hvalue
    have hdigit : hexDigit (n / 16 ^ 0 % 16).digitChar = some (n / 16 ^ 0 % 16) :=
      hexDigit_digitChar (Nat.mod_lt _ (by decide))
    rw [hexDigits, hexDigits, List.cons_append, List.nil_append, unquote, hdigit]
    dsimp only
    rw [if_neg (by decide), hlast, if_pos hn]
  | succ digits ih =>
    have hdigit : hexDigit (n / 16 ^ (digits + 1) % 16).digitChar = some (n / 16 ^ (digits + 1) % 16) :=
      hexDigit_digitChar (Nat.mod_lt _ (by decide))
    have hnext : (value * 16 + n / 16 ^ (digits + 1) % 16) * 16 ^ (digits + 1) +
        n % 16 ^ (digits + 1) = n := by
      have hsplit := Nat.mod_mul (x := n) (a := 16 ^ (digits + 1)) (b := 16)
      rw [← Nat.pow_succ] at hsplit
      calc (value * 16 + n / 16 ^ (digits + 1) % 16) * 16 ^ (digits + 1) + n % 16 ^ (digits + 1)
          = value * 16 ^ (digits + 1 + 1) +
              (n % 16 ^ (digits + 1) + 16 ^ (digits + 1) * (n / 16 ^ (digits + 1) % 16)) := by
            rw [Nat.pow_succ 16 (digits + 1), Nat.add_mul, Nat.mul_assoc, Nat.mul_comm 16,
              Nat.add_assoc, Nat.mul_comm (n / _ % 16), Nat.add_comm (n % _)]
        _ = n := by rw [← hsplit, hvalue]
    rw [hexDigits, List.cons_append, unquote, hdigit]
    dsimp only
    rw [if_pos (by omega)]
    exact ih _ hnext

/-! ## One scalar -/

def isPlain (c : Char) : Bool := c.isAlphanum || c = '_' || c = '.' || c = '-'

/-- The scalar a text begins with, and what follows it. -/
def scalar : Text → Option (Scalar × Text)
  | [] => none
  | c :: rest =>
    if c = '"' then (unquote .text rest).map fun r => (.str r.1, r.2)
    else if c.isAlphanum then
      some (resolve ((c :: rest).takeWhile isPlain), (c :: rest).dropWhile isPlain)
    else none

theorem scalar_plain {c : Char} {name : Text} (hc : c.isAlphanum = true)
    (h : ∀ d ∈ name, isPlain d = true) {rest : Text} (hrest : rest.head?.all (!isPlain ·) = true) :
    scalar (c :: name ++ rest) = some (resolve (c :: name), rest) := by
  have hquote : c ≠ '"' := by
    rintro rfl
    exact absurd hc (by decide)
  have hplain : ∀ d ∈ c :: name, isPlain d = true :=
    List.forall_mem_cons.mpr ⟨by rw [isPlain, hc]; rfl, h⟩
  have hstop : rest.takeWhile isPlain = [] ∧ rest.dropWhile isPlain = rest := by
    cases rest with
    | nil => exact ⟨rfl, rfl⟩
    | cons d rest =>
      have hd : isPlain d = false := by simpa using hrest
      exact ⟨List.takeWhile_cons_of_neg (by simp [hd]), List.dropWhile_cons_of_neg (by simp [hd])⟩
  have htake : (c :: (name ++ rest)).takeWhile isPlain = c :: name := by
    rw [← List.cons_append, List.takeWhile_append_of_pos hplain, hstop.1, List.append_nil]
  have hdrop : (c :: (name ++ rest)).dropWhile isPlain = rest := by
    rw [← List.cons_append, List.dropWhile_append_of_pos hplain, hstop.2]
  rw [List.cons_append, scalar, if_neg hquote, if_pos hc, htake, hdrop]

end LukePanel.Library.Yaml
